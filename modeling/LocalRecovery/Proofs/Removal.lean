import LocalRecovery.Proofs.Handled

set_option autoImplicit false

/-! # Which fields are removed

`finalize` removes the fields that have become a variable somewhere (`Recovery.isConverted`). This
module says which ones these are: the candidates that the code accessed at the beginning.

A session keeps both halves of it, call by call (`Tracked`). Nothing but an accessed candidate is
ever converted, because processing adds no access to a field. And an access to a candidate does not
get lost: as long as it is there a later call may still convert the field, and it goes away only by
having converted the field. So calls that fail half way do no harm, and once every type has been
processed with success the two halves meet (`Tracked.isConverted_iff`).
-/

namespace LocalRecovery

/-! ## Accesses -/

/-- Some instruction accesses the field, be it as a static one or through an object. -/
def Code.Accesses (code : Code) (field : Token) : Prop :=
  ∃ i ∈ code, i.fieldToken? = some field

def Method.Accesses (m : Method) (field : Token) : Prop :=
  ∃ b ∈ m.body, b.code.Accesses field

def TypeDef.Accesses (t : TypeDef) (field : Token) : Prop :=
  ∃ m ∈ t.methods, m.Accesses field

def Module.Accesses (mod : Module) (field : Token) : Prop :=
  ∃ t ∈ mod.types, t.Accesses field

instance (mod : Module) (field : Token) : Decidable (mod.Accesses field) :=
  inferInstanceAs (Decidable (∃ t ∈ mod.types, ∃ m ∈ t.methods, ∃ b ∈ m.body, ∃ i ∈ b.code,
    i.fieldToken? = some field))

theorem Instruction.meaning_of_fieldToken? {i : Instruction} {field : Token}
    (h : i.fieldToken? = some field) : i.meaning = .itself i := by
  obtain ⟨storage, kind, rfl⟩ := eq_of_fieldToken? h
  exact meaning_field storage kind _

/-- Shrinking code neither adds nor drops an instruction that has only one spelling. -/
theorem Code.mem_shrink_iff {code : Code} {i : Instruction} (hm : i.meaning = .itself i) :
    i ∈ code.shrink ↔ i ∈ code := by
  have hmem : ∀ c : Code, i ∈ c ↔ .itself i ∈ c.map Instruction.meaning := by
    intro c
    rw [List.mem_map]
    constructor
    · exact fun hi => ⟨i, hi, hm⟩
    · rintro ⟨j, hj, hmeaning⟩
      rwa [← Instruction.eq_of_meaning_itself hmeaning]
  rw [hmem, hmem, map_meaning_shrink]

theorem Code.accesses_shrink_iff (code : Code) (field : Token) :
    code.shrink.Accesses field ↔ code.Accesses field := by
  constructor
  · rintro ⟨i, hi, hfield⟩
    exact ⟨i, (mem_shrink_iff (Instruction.meaning_of_fieldToken? hfield)).mp hi, hfield⟩
  · rintro ⟨i, hi, hfield⟩
    exact ⟨i, (mem_shrink_iff (Instruction.meaning_of_fieldToken? hfield)).mpr hi, hfield⟩

/-! ## Accesses after a call -/

section

variable {candidates : List Candidate} {bindings : List Binding} {method field : Token}

/-- In handled code an access is an old one, and an old one is there or has bound its field. -/
theorem Walk.accesses_of_handled {code code' : Code}
    (h : List.Forall₂ (Walk.Handled candidates bindings method) code code') :
    (code'.Accesses field → code.Accesses field) ∧
      (code.Accesses field →
        code'.Accesses field ∨ ∃ slot, Binding.find? bindings field method = some slot) := by
  constructor
  · rintro ⟨i', hi', hfield⟩
    obtain ⟨i, hi, hhandled⟩ := exists_of_forall₂_right h hi'
    cases hhandled with
    | kept => exact ⟨i', hi, hfield⟩
    | redirected => cases hfield
  · rintro ⟨i, hi, hfield⟩
    obtain ⟨i', hi', hhandled⟩ := exists_of_forall₂_left h hi
    cases hhandled with
    | kept => exact Or.inl ⟨i, hi', hfield⟩
    | redirected hc hbound =>
        cases hfield
        exact Or.inr ⟨_, hbound⟩

theorem Body.Handled.accesses {b b' : Body} (h : b.Handled candidates bindings method b') :
    (b'.code.Accesses field → b.code.Accesses field) ∧
      (b.code.Accesses field →
        b'.code.Accesses field ∨ ∃ slot, Binding.find? bindings field method = some slot) := by
  obtain ⟨code, hcode, hspelling⟩ := h
  have hsame : b'.code.Accesses field ↔ code.Accesses field := by
    rcases hspelling with heq | heq
    · rw [heq]
    · rw [heq, Code.accesses_shrink_iff]
  rw [hsame]
  exact Walk.accesses_of_handled hcode

theorem Method.Handled.accesses {m m' : Method} (h : m.Handled candidates bindings m') :
    (m'.Accesses field → m.Accesses field) ∧
      (m.Accesses field →
        m'.Accesses field ∨ ∃ slot, Binding.find? bindings field m.token = some slot) := by
  constructor
  · rintro ⟨b', hb', haccess⟩
    obtain ⟨b, hb, hhandled⟩ := exists_of_rel_right h.2 hb'
    exact ⟨b, hb, hhandled.accesses.1 haccess⟩
  · rintro ⟨b, hb, haccess⟩
    obtain ⟨b', hb', hhandled⟩ := exists_of_rel_left h.2 hb
    exact (hhandled.accesses.2 haccess).imp_left fun ha => ⟨b', hb', ha⟩

theorem TypeDef.Handled.accesses {t t' : TypeDef} (h : t.Handled candidates bindings t') :
    (t'.Accesses field → t.Accesses field) ∧
      (t.Accesses field →
        t'.Accesses field ∨ ∃ method slot, Binding.find? bindings field method = some slot) := by
  constructor
  · rintro ⟨m', hm', haccess⟩
    obtain ⟨m, hm, hhandled⟩ := exists_of_forall₂_right h.2 hm'
    exact ⟨m, hm, hhandled.accesses.1 haccess⟩
  · rintro ⟨m, hm, haccess⟩
    obtain ⟨m', hm', hhandled⟩ := exists_of_forall₂_left h.2 hm
    rcases hhandled.accesses.2 haccess with ha | hbound
    · exact Or.inl ⟨m', hm', ha⟩
    · exact Or.inr ⟨m.token, hbound⟩

/-- Only accesses to candidates bind. -/
theorem Walk.find?_run_inv {config : RecoveryConfig} {code : Code} {index : Nat} {w : Walk}
    {other : Token} {slot : UInt16}
    (h : Binding.find? (run config candidates method index code w).walk.bindings field other
      = some slot) :
    Binding.find? w.bindings field other = some slot ∨
      (Candidate.find? candidates field).isSome = true ∧ code.Accesses field := by
  refine run_preserves
    (P := fun v => Binding.find? v.bindings field other = some slot →
      Binding.find? w.bindings field other = some slot ∨
        (Candidate.find? candidates field).isSome = true ∧ code.Accesses field)
    code ?_ index Or.inl h
  intro _ i hi v move hs hv hbound
  rcases step_cases hs with ⟨hb, _⟩ | ⟨c, hc, _, _, hb, _⟩
  · exact hv (hb ▸ hbound)
  · -- the one new binding is that of the candidate which `i` accesses
    rw [hb, declare, Binding.find?_cons] at hbound
    split_ifs at hbound with hnew
    · obtain ⟨hfield, hfind⟩ := Instruction.find?_of_candidate? hc
      obtain ⟨rfl, _⟩ := hnew
      exact Or.inr ⟨by rw [hfind]; rfl, i, hi, hfield⟩
    · exact hv hbound

/-- An access to a candidate binds it. -/
theorem Walk.Means.exists_slot {i : Instruction} {meaning : Meaning}
    (h : Means candidates bindings method i meaning) (hfield : i.fieldToken? = some field)
    (hc : (Candidate.find? candidates field).isSome = true) :
    ∃ slot, Binding.find? bindings field method = some slot := by
  obtain ⟨c, hfind⟩ := Option.isSome_iff_exists.mp hc
  have hcandidate : i.candidate? candidates = some c := by
    unfold Instruction.candidate?
    rw [hfield]
    exact hfind
  obtain ⟨i', hi, _⟩ := h
  unfold Redirected at hi
  rw [hcandidate] at hi
  obtain ⟨slot, hslot, _⟩ := hi
  rw [Candidate.token_of_find? hfind] at hslot
  exact ⟨slot, hslot⟩

theorem Method.Recovered.exists_slot {m m' : Method} (h : m.Recovered candidates bindings m')
    (haccess : m.Accesses field) (hc : (Candidate.find? candidates field).isSome = true) :
    ∃ slot, Binding.find? bindings field m.token = some slot := by
  obtain ⟨b, hb, i, hi, hfield⟩ := haccess
  obtain ⟨b', _, hcode⟩ := exists_of_rel_left h.2 hb
  obtain ⟨meaning, _, hmeans⟩ := exists_of_forall₂_left hcode hi
  exact hmeans.exists_slot hfield hc

end

/-! ## Converted fields -/

namespace Recovery

/-- A field is converted if it is bound in some method. -/
theorem isConverted_iff (p : Recovery) (field : Token) :
    p.isConverted field = true ↔
      ∃ method slot, Binding.find? p.bindings field method = some slot := by
  unfold isConverted
  induction p.bindings with
  | nil => simp [Binding.find?]
  | cons b rest ih =>
      rw [List.any_cons, Bool.or_eq_true, ih, beq_iff_eq]
      simp only [Binding.find?_cons]
      constructor
      · rintro (hb | ⟨method, slot, hslot⟩)
        · exact ⟨b.method, b.slot, if_pos ⟨hb, rfl⟩⟩
        · by_cases hnew : b.field = field ∧ b.method = method
          · exact ⟨method, b.slot, if_pos hnew⟩
          · exact ⟨method, slot, by rw [if_neg hnew]; exact hslot⟩
      · rintro ⟨method, slot, hslot⟩
        split_ifs at hslot with hnew
        · exact Or.inl hnew.1
        · exact Or.inr ⟨method, slot, hslot⟩

/-- What is converted stays converted. -/
theorem isConverted_of_extends {p q : Recovery} {field : Token}
    (hext : Binding.Extends q.bindings p.bindings) (h : p.isConverted field = true) :
    q.isConverted field = true := by
  obtain ⟨method, slot, hslot⟩ := (p.isConverted_iff field).mp h
  exact (q.isConverted_iff field).mpr ⟨method, slot, hext _ _ _ hslot⟩

theorem isConverted_redirectMethod_inv {p : Recovery} {m : Method} {field : Token}
    (h : (p.redirectMethod m).pass.isConverted field = true) :
    p.isConverted field = true ∨
      (Candidate.find? (p.candidates.getD []) field).isSome = true ∧ m.Accesses field := by
  obtain ⟨method, slot, hslot⟩ := (isConverted_iff _ _).mp h
  rcases m with ⟨token, name, _ | b⟩
  · exact Or.inl ((p.isConverted_iff field).mpr ⟨method, slot, hslot⟩)
  · change Binding.find? (p.redirectBody token b).pass.bindings field method = some slot at hslot
    rw [redirectBody_pass] at hslot
    rcases Walk.find?_run_inv hslot with hold | ⟨hc, haccess⟩
    · exact Or.inl ((p.isConverted_iff field).mpr ⟨method, slot, hold⟩)
    · exact Or.inr ⟨hc, b, rfl, haccess⟩

theorem isConverted_redirectMethods_inv {p : Recovery} {methods : List Method} {field : Token}
    (h : (p.redirectMethods methods).pass.isConverted field = true) :
    p.isConverted field = true ∨
      (Candidate.find? (p.candidates.getD []) field).isSome = true ∧
        ∃ m ∈ methods, m.Accesses field := by
  -- each method is walked with the candidates of the moment, which are always the same
  refine (redirectMethods_preserves
    (P := fun q => q.candidates = p.candidates ∧
      (q.isConverted field = true →
        p.isConverted field = true ∨
          (Candidate.find? (p.candidates.getD []) field).isSome = true ∧
            ∃ m ∈ methods, m.Accesses field))
    ?_ ⟨rfl, Or.inl⟩).2 h
  rintro q m hm ⟨hcandidates, hq⟩
  refine ⟨(q.redirectMethod_pass m).2.trans hcandidates, fun hconverted => ?_⟩
  rcases isConverted_redirectMethod_inv hconverted with hold | ⟨hc, haccess⟩
  · exact hq hold
  · exact Or.inr ⟨hcandidates ▸ hc, m, hm, haccess⟩

/-- A call converts nothing but candidates that the module accesses. -/
theorem isConverted_process_inv {p : Recovery} {mod : Module} {token field : Token}
    (h : (p.process mod token).pass.isConverted field = true) :
    p.isConverted field = true ∨
      (Candidate.find? (p.candidatesIn mod) field).isSome = true ∧ mod.Accesses field := by
  rcases p.process_cases mod token with ⟨hpass, _⟩ | ⟨front, t, back, hmod, hpass, _⟩
  · rw [hpass, locate_pass] at h
    exact Or.inl h
  · rw [hpass] at h
    have hinv := isConverted_redirectMethods_inv h
    rw [locate_pass] at hinv
    refine hinv.imp_right fun hnew => ⟨hnew.1, t, ?_, hnew.2⟩
    rw [hmod]
    exact List.mem_append_right front List.mem_cons_self

/-- A call that succeeds converts every candidate that the type accesses. -/
theorem isConverted_of_ok {p : Recovery} {mod : Module} {front back : List TypeDef} {t : TypeDef}
    {field : Token} {changed : Bool} (hmod : mod.types = front ++ t :: back)
    (hfront : ∀ u ∈ front, u.token ≠ t.token)
    (hok : (p.process mod t.token).result = .ok changed) (haccess : t.Accesses field)
    (hc : (Candidate.find? (p.candidatesIn mod) field).isSome = true) :
    (p.process mod t.token).pass.isConverted field = true := by
  obtain ⟨hresult, hpass, _⟩ := process_at (p := p) hmod hfront
  have hrecovered := recovered_redirectMethods (hresult.symm.trans hok)
  obtain ⟨m, hm, haccess⟩ := haccess
  obtain ⟨m', _, hm'⟩ := exists_of_forall₂_left hrecovered hm
  rw [hpass, isConverted_iff]
  rw [locate_pass] at hm' ⊢
  exact ⟨m.token, hm'.exists_slot haccess hc⟩

end Recovery

/-! ## What a session keeps -/

/-- What a type has become. An access to a candidate is still there, or it has converted the
field. -/
structure TypeDef.Tracked (original : Module) (p : Recovery) (t₀ t : TypeDef) : Prop where
  rest : t = { t₀ with methods := t.methods }
  old : ∀ field, t.Accesses field → t₀.Accesses field
  kept : ∀ field, original.IsCandidate field → t₀.Accesses field →
    t.Accesses field ∨ p.isConverted field = true

theorem TypeDef.Tracked.isGlobal_eq {original : Module} {p : Recovery} {t₀ t : TypeDef}
    (h : t₀.Tracked original p t) : t.isGlobal = t₀.isGlobal := by
  rw [h.rest]
  rfl

theorem TypeDef.Tracked.fields_eq {original : Module} {p : Recovery} {t₀ t : TypeDef}
    (h : t₀.Tracked original p t) : t.fields = t₀.fields := by
  rw [h.rest]

/-- What a recovery and a module have become since the recovery was first called with the module
`original`, fields not having been removed. -/
structure Tracked (original : Module) (p : Recovery) (mod : Module) : Prop where
  candidates : p.candidatesIn mod = Candidate.collect original.globalFields
  converted : ∀ field, p.isConverted field = true →
    original.IsCandidate field ∧ original.Accesses field
  types : List.Forall₂ (TypeDef.Tracked original p) original.types mod.types

theorem tracked_start (config : RecoveryConfig) (mod : Module) :
    Tracked mod { config } mod where
  candidates := rfl
  converted _ h := by cases h
  types := List.forall₂_same.mpr fun _ _ => ⟨rfl, fun _ h => h, fun _ _ h => Or.inl h⟩

namespace Tracked

variable {original mod : Module} {p : Recovery} {field : Token}

theorem isSome_find?_iff (h : Tracked original p mod) (field : Token) :
    (Candidate.find? (p.candidatesIn mod) field).isSome = true ↔ original.IsCandidate field := by
  rw [h.candidates]
  exact Candidate.isSome_find?_collect_iff _ _

theorem accesses (h : Tracked original p mod) (haccess : mod.Accesses field) :
    original.Accesses field := by
  obtain ⟨t, ht, haccess⟩ := haccess
  obtain ⟨t₀, ht₀, htracked⟩ := exists_of_forall₂_right h.types ht
  exact ⟨t₀, ht₀, htracked.old field haccess⟩

/-- A call keeps track, whatever it returns. -/
theorem process (h : Tracked original p mod) (token : Token) :
    Tracked original (p.process mod token).pass (p.process mod token).mod where
  candidates := (p.candidatesIn_process mod token _).trans h.candidates
  converted := by
    intro field hconverted
    rcases Recovery.isConverted_process_inv hconverted with hold | ⟨hc, haccess⟩
    · exact h.converted field hold
    · exact ⟨(h.isSome_find?_iff field).mp hc, h.accesses haccess⟩
  types := by
    refine forall₂_trans ?_ h.types (p.process_handled mod token)
    rintro t₀ t t' ⟨hrest, hold, hkept⟩ hhandled
    refine ⟨?_, fun field ha => hold field (hhandled.accesses.1 ha), fun field hc ha => ?_⟩
    · rw [hhandled.1, hrest]
    · rcases hkept field hc ha with ha | hconverted
      · exact (hhandled.accesses.2 ha).imp_right ((Recovery.isConverted_iff _ field).mpr)
      · exact Or.inr (Recovery.isConverted_of_extends (p.extends_process mod token) hconverted)

theorem typeTokens_eq (h : Tracked original p mod) : mod.typeTokens = original.typeTokens :=
  map_eq_of_forall₂ (fun _ _ ht => by rw [ht.rest]) h.types

/-- A call that succeeds on a type converts every candidate that the type accessed in the beginning,
also if calls that failed have changed it since. -/
theorem isConverted_of_ok (h : Tracked original p mod) (hnodup : original.typeTokens.Nodup)
    {t₀ : TypeDef} (ht₀ : t₀ ∈ original.types) {changed : Bool}
    (hok : (p.process mod t₀.token).result = .ok changed) (hc : original.IsCandidate field)
    (haccess : t₀.Accesses field) :
    (p.process mod t₀.token).pass.isConverted field = true := by
  obtain ⟨t, ht, hrest, _, hkept⟩ := exists_of_forall₂_left h.types ht₀
  have htoken : t.token = t₀.token := by rw [hrest]
  rw [← htoken] at hok ⊢
  -- an access that an earlier call has taken away is no loss
  rcases hkept field hc haccess with ha | hconverted
  · obtain ⟨front, back, hmod⟩ := List.append_of_mem ht
    have hfront := Module.token_ne_of_nodup (h.typeTokens_eq ▸ hnodup) hmod
    exact Recovery.isConverted_of_ok hmod hfront hok ha ((h.isSome_find?_iff field).mpr hc)
  · exact Recovery.isConverted_of_extends (p.extends_process mod t.token) hconverted

theorem session (h : Tracked original p mod) (tokens : List Token) :
    Tracked original (p.session mod (tokens.map .process)).pass
      (p.session mod (tokens.map .process)).mod := by
  induction tokens generalizing p mod with
  | nil => exact h
  | cons token rest ih => exact ih (h.process token)

theorem isConverted_of_session (h : Tracked original p mod) (hnodup : original.typeTokens.Nodup)
    {t₀ : TypeDef} (ht₀ : t₀ ∈ original.types) {tokens : List Token} {k : Nat} {changed : Bool}
    (htoken : tokens[k]? = some t₀.token)
    (hok : (p.session mod (tokens.map .process)).results[k]? = some (.ok changed))
    (hc : original.IsCandidate field) (haccess : t₀.Accesses field) :
    (p.session mod (tokens.map .process)).pass.isConverted field = true := by
  induction tokens generalizing p mod k with
  | nil => cases htoken
  | cons token rest ih =>
      cases k with
      | zero =>
          -- this call converts the field, and the later ones keep it converted
          obtain rfl : token = t₀.token := Option.some.inj htoken
          have hfirst : (p.process mod t₀.token).result = .ok changed := Option.some.inj hok
          exact Recovery.isConverted_of_extends (Recovery.extends_session _ _ (rest.map .process))
            (h.isConverted_of_ok hnodup ht₀ hfirst hc haccess)
      | succ k => exact ih (h.process token) htoken hok

/-- Once each type has been processed with success, the converted fields are the candidates that the
code accessed. -/
theorem isConverted_iff (h : Tracked original p mod) (hnodup : original.typeTokens.Nodup)
    {tokens : List Token}
    (hok : ∀ token ∈ original.typeTokens, ∃ (k : Nat) (changed : Bool), tokens[k]? = some token ∧
      (p.session mod (tokens.map .process)).results[k]? = some (.ok changed))
    (field : Token) :
    (p.session mod (tokens.map .process)).pass.isConverted field = true ↔
      original.IsCandidate field ∧ original.Accesses field := by
  constructor
  · exact (h.session tokens).converted field
  · rintro ⟨hc, t₀, ht₀, haccess⟩
    obtain ⟨k, changed, htoken, hresult⟩ := hok t₀.token (List.mem_map_of_mem ht₀)
    exact h.isConverted_of_session hnodup ht₀ htoken hresult hc haccess

/-- Split at a type of the original, the module has what has become of the types in front of it, of
the type and of those behind it. -/
theorem types_split (h : Tracked original p mod) {front back : List TypeDef} {t₀ : TypeDef}
    (horiginal : original.types = front ++ t₀ :: back) :
    ∃ front' t back', mod.types = front' ++ t :: back' ∧
      List.Forall₂ (TypeDef.Tracked original p) front front' ∧ t₀.Tracked original p t ∧
      List.Forall₂ (TypeDef.Tracked original p) back back' := by
  have hflip := h.types.flip
  rw [horiginal] at hflip
  obtain ⟨front', later, hmod, hfront, hlater⟩ := exists_append_of_forall₂ hflip
  obtain ⟨t, back', ht, hback, rfl⟩ := List.forall₂_cons_right_iff.mp hlater
  exact ⟨front', t, back', hmod, hfront.flip, ht, hback.flip⟩

end Tracked

/-! ## The end of a session -/

namespace Recovery

/-- Fields that are converted are gone after the first call, so that a second one finds nothing. -/
theorem finalize_finalize (p : Recovery) (mod : Module) :
    (p.finalize (p.finalize mod).mod).mod = (p.finalize mod).mod ∧
      (p.finalize (p.finalize mod).mod).journal.events = [] := by
  have hidle : ∀ current : Module,
      (p.config.removeFields = false ∨ ∀ t ∈ current.types, t.isGlobal = false) →
      (p.finalize current).mod = current ∧ (p.finalize current).journal.events = [] := by
    intro current h
    obtain ⟨hmod, hjournal⟩ := finalize_idle h
    exact ⟨hmod, by rw [hjournal]⟩
  cases hremove : p.config.removeFields with
  | false => exact hidle _ (Or.inl hremove)
  | true =>
      rcases forall_or_exists_first TypeDef.isGlobal mod.types with
        hnone | ⟨front, t, back, hmod, ht, hfront⟩
      · rw [(hidle mod (Or.inr hnone)).1]
        exact hidle mod (Or.inr hnone)
      · obtain ⟨hfirst, _⟩ := finalize_at hremove hmod ht hfront
        obtain ⟨hagain, hevents⟩ :=
          finalize_at hremove (congrArg Module.types hfirst) ht hfront
        -- what was kept is not converted
        have hnone : ((t.fields.filter fun f => !p.isConverted f.token).filter
            fun f => p.isConverted f.token) = [] := by
          simp [List.filter_filter]
        have hall : ((t.fields.filter fun f => !p.isConverted f.token).filter
            fun f => !p.isConverted f.token)
            = t.fields.filter fun f => !p.isConverted f.token := by
          simp [List.filter_filter]
        rw [hagain, hevents]
        simp only [hnone, hall, hfirst]
        simp

/-- However often it is called again. -/
theorem session_finalize_again (p : Recovery) (mod : Module) (n : Nat) :
    let again := p.session (p.finalize mod).mod (List.replicate n .finalize)
    again.mod = (p.finalize mod).mod ∧ again.journal.events = [] := by
  induction n with
  | zero => exact ⟨rfl, rfl⟩
  | succ n ih =>
      obtain ⟨hmod, hevents⟩ := p.finalize_finalize mod
      rw [List.replicate_succ]
      simp only [session, call, (p.finalize_cases _).1, hmod, Journal.events_append, hevents,
        List.nil_append]
      exact ih

/-- Without removal no call changes the fields of a type. -/
theorem session_fields_of_not_remove {config : RecoveryConfig} (hkeep : config.removeFields = false)
    (mod : Module) (calls : List Call) :
    (session { config } mod calls).mod.types.map TypeDef.fields = mod.types.map TypeDef.fields := by
  refine (session_preserves
    (P := fun q current => q.config = config ∧
      current.types.map TypeDef.fields = mod.types.map TypeDef.fields)
    ?_ calls ⟨rfl, rfl⟩).2
  rintro q current c ⟨hconfig, hfields⟩
  refine ⟨(q.call_config current c).trans hconfig, ?_⟩
  cases c with
  | locate => exact hfields
  | process type =>
      have hsame := map_eq_of_forall₂ (g := TypeDef.fields) (fun _ _ ht => by rw [ht.1])
        (q.process_handled current type)
      exact hsame.trans hfields
  | finalize =>
      have hidle : (q.finalize current).mod = current :=
        (finalize_idle (Or.inl (by rw [hconfig, hkeep]))).1
      show (q.finalize current).mod.types.map TypeDef.fields = mod.types.map TypeDef.fields
      rw [hidle]
      exact hfields

/-- **Exactly the accessed candidates are removed.** Let the types have distinct tokens, and let a
session of a new recovery call `process` with success for every type, in any order and whatever else
it is called with. If `finalize` removes fields, the first global type then has the fields that it
had in the order in which it had them, but for those whose token is the token of a candidate that
some method of the original module accessed, and every other type has the fields that it had.
Calling `finalize` again changes nothing and records nothing. If fields are not to be removed, no
session changes the fields of a type. -/
theorem session_removes_exactly (config : RecoveryConfig) (mod : Module)
    (htypes : mod.typeTokens.Nodup) (tokens : List Token)
    (hok : ∀ token ∈ mod.typeTokens, ∃ (k : Nat) (changed : Bool), tokens[k]? = some token ∧
      (session { config } mod (tokens.map .process)).results[k]? = some (.ok changed)) :
    let s := session { config } mod (tokens.map .process ++ [.finalize])
    (config.removeFields = true →
      (∀ (front back : List TypeDef) (t : TypeDef), mod.types = front ++ t :: back →
        t.isGlobal = true → (∀ u ∈ front, u.isGlobal = false) →
        s.mod.types.map TypeDef.fields
          = front.map TypeDef.fields
            ++ (t.fields.filter fun f =>
                !decide (mod.IsCandidate f.token ∧ mod.Accesses f.token))
            :: back.map TypeDef.fields) ∧
      ((∀ t ∈ mod.types, t.isGlobal = false) →
        s.mod.types.map TypeDef.fields = mod.types.map TypeDef.fields) ∧
      ∀ n : Nat,
        (s.pass.session s.mod (List.replicate n .finalize)).mod = s.mod ∧
        (s.pass.session s.mod (List.replicate n .finalize)).journal.events = []) ∧
    (config.removeFields = false → ∀ calls : List Call,
      (session { config } mod calls).mod.types.map TypeDef.fields
        = mod.types.map TypeDef.fields) := by
  intro s
  -- the session up to the last call
  have htracked := (tracked_start config mod).session tokens
  have hconverted := (tracked_start config mod).isConverted_iff htypes hok
  have hconfig := session_config { config } mod (tokens.map .process)
  obtain ⟨hpass, hmod, _⟩ := session_append { config } mod (tokens.map .process) [.finalize]
  generalize session { config } mod (tokens.map .process) = s₀
    at htracked hconverted hconfig hpass hmod
  -- the last call
  have hsmod : s.mod = (s₀.pass.finalize s₀.mod).mod := hmod
  have hspass : s.pass = s₀.pass := hpass.trans (s₀.pass.finalize_cases s₀.mod).1
  refine ⟨fun hremove => ⟨?_, ?_, ?_⟩, fun hkeep => session_fields_of_not_remove hkeep mod⟩
  · intro front back t horiginal ht hfront
    obtain ⟨front', t', back', htypes', hfront', ht', hback'⟩ := htracked.types_split horiginal
    have hfirst : ∀ u ∈ front', u.isGlobal = false := by
      intro u hu
      obtain ⟨u₀, hu₀, htrack⟩ := exists_of_forall₂_right hfront' hu
      exact htrack.isGlobal_eq.trans (hfront u₀ hu₀)
    have hkept : (t'.fields.filter fun f => !s₀.pass.isConverted f.token)
        = t.fields.filter fun f => !decide (mod.IsCandidate f.token ∧ mod.Accesses f.token) := by
      rw [ht'.fields_eq]
      refine List.filter_congr fun f _ => ?_
      rw [Bool.eq_iff_iff.mpr ((hconverted f.token).trans decide_eq_true_iff.symm)]
    have hswitch : s₀.pass.config.removeFields = true := by
      rw [hconfig]
      exact hremove
    obtain ⟨hfinal, _⟩ := finalize_at hswitch htypes' (ht'.isGlobal_eq.trans ht) hfirst
    rw [hsmod, hfinal, List.map_append, List.map_cons, hkept,
      map_eq_of_forall₂ (fun _ _ htrack => htrack.fields_eq) hfront',
      map_eq_of_forall₂ (fun _ _ htrack => htrack.fields_eq) hback']
  · intro hnone
    have hnone' : ∀ u ∈ s₀.mod.types, u.isGlobal = false := by
      intro u hu
      obtain ⟨u₀, hu₀, htrack⟩ := exists_of_forall₂_right htracked.types hu
      exact htrack.isGlobal_eq.trans (hnone u₀ hu₀)
    rw [hsmod, (finalize_idle (Or.inr hnone')).1]
    exact map_eq_of_forall₂ (fun _ _ htrack => htrack.fields_eq) htracked.types
  · rw [hsmod, hspass]
    exact s₀.pass.session_finalize_again s₀.mod

theorem session_removes_exactly_hoistedLoop :
    let tokens : List Token := [⟨0x02000002⟩, ⟨0x02000009⟩, ⟨0x02000001⟩]
    let s := session {} hoistedLoop (tokens.map .process ++ [.finalize])
    hoistedLoop.typeTokens.Nodup ∧
    (∀ token ∈ hoistedLoop.typeTokens, ∃ (k : Nat) (changed : Bool), tokens[k]? = some token ∧
      (session {} hoistedLoop (tokens.map .process)).results[k]? = some (.ok changed)) ∧
    (s.mod.types.map TypeDef.fields).map (List.map Field.name) = [["spare"], []] ∧
    (s.pass.session s.mod [.finalize, .finalize]).journal.events = [] := by
  intro tokens s
  have htypes : hoistedLoop.typeTokens.Nodup := by decide
  have hok : ∀ token ∈ hoistedLoop.typeTokens, ∃ (k : Nat) (changed : Bool),
      tokens[k]? = some token ∧
      (session {} hoistedLoop (tokens.map .process)).results[k]? = some (.ok changed) := by
    intro token htoken
    obtain rfl | rfl : token = ⟨0x02000001⟩ ∨ token = ⟨0x02000002⟩ := by
      simpa [Module.typeTokens, hoistedLoop] using htoken
    · exact ⟨2, false, rfl, by decide +kernel⟩
    · exact ⟨0, true, rfl, by decide +kernel⟩
  obtain ⟨hfields, _, hagain⟩ := (session_removes_exactly {} hoistedLoop htypes tokens hok).1 rfl
  refine ⟨htypes, hok, ?_, (hagain 2).2⟩
  rw [hfields [] _ _ rfl rfl (by simp)]
  decide

end Recovery

end LocalRecovery
