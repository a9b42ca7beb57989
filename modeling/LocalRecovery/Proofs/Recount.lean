import LocalRecovery.Proofs.Switches
import Mathlib.Algebra.BigOperators.Group.Finset.Basic

set_option autoImplicit false

/-! # Accesses that are counted again

A recovery counts the accesses to candidates that its calls come across. A static access is
redirected by the call that counts it, and no later call comes across it. An access through an
object stays in the code, so each further call for its type counts it again (`redirects_session`).

The counter is therefore the number of accesses exactly as long as no type with an access through an
object is processed twice. A second full run processes every type again (`redirects_of_calls`).
-/

namespace LocalRecovery

/-! ## Static accesses and accesses through an object -/

/-- Whether an opcode accesses fields of a type or of an object. -/
def Opcode.storage? : Opcode → Option Storage
  | .field storage _ => some storage
  | _ => none

/-- The instruction accesses a candidate, as a static field or through an object. -/
def Instruction.isAccess (candidates : List Candidate) (storage : Storage) (i : Instruction) :
    Bool :=
  i.fieldToken?.any fun field =>
    (Candidate.find? candidates field).isSome && i.opcode.storage? == some storage

/-- The number of accesses to candidates, of one sort. -/
def Code.countOf (candidates : List Candidate) (storage : Storage) (code : Code) : Nat :=
  code.countP (Instruction.isAccess candidates storage)

def Method.countOf (candidates : List Candidate) (storage : Storage) (m : Method) : Nat :=
  (m.body.map fun b => b.code.countOf candidates storage).getD 0

def TypeDef.countOf (candidates : List Candidate) (storage : Storage) (t : TypeDef) : Nat :=
  (t.methods.map (Method.countOf candidates storage)).sum

/-- The number of accesses of one sort in the type that a call for the token reaches. -/
def Module.countAt (candidates : List Candidate) (storage : Storage) (mod : Module)
    (token : Token) : Nat :=
  match mod.type token with
  | .ok t => t.countOf candidates storage
  | .error _ => 0

variable {candidates : List Candidate} {bindings : List Binding} {storage : Storage}

namespace Instruction

theorem isAccess_field (storage' : Storage) (kind : AccessKind) (field : Token) :
    isAccess candidates storage ⟨.field storage' kind, .token field⟩
      = ((Candidate.find? candidates field).isSome && storage' == storage) :=
  rfl

theorem isAccess_of_none {i : Instruction} (h : i.fieldToken? = none) :
    i.isAccess candidates storage = false := by
  unfold isAccess
  rw [h]
  rfl

/-- The access to a candidate is part of the meaning. -/
theorem isAccess_eq_meaning (i : Instruction) :
    i.isAccess candidates storage
      = i.meaning.fieldAccess?.any fun access =>
          (Candidate.find? candidates access.2).isSome && access.1.storage? == some storage := by
  rw [fieldAccess?_meaning, Option.any_map]
  rfl

/-- Every access is of one of the two sorts. -/
theorem ite_candidate?_eq_add (candidates : List Candidate) (i : Instruction) :
    (if (i.candidate? candidates).isSome then 1 else 0)
      = (if i.isAccess candidates .static then 1 else 0)
        + if i.isAccess candidates .object then 1 else 0 := by
  cases hfield : i.fieldToken? with
  | none =>
      rw [isAccess_of_none hfield, isAccess_of_none hfield]
      unfold candidate?
      rw [hfield]
      rfl
  | some field =>
      obtain ⟨storage, kind, rfl⟩ := eq_of_fieldToken? hfield
      show (if (Candidate.find? candidates field).isSome then 1 else 0) = _
      rw [isAccess_field, isAccess_field]
      cases storage <;> simp

end Instruction

theorem Code.accessCount_eq_add (code : Code) :
    code.accessCount candidates
      = code.countOf candidates .static + code.countOf candidates .object := by
  induction code with
  | nil => rfl
  | cons i rest ih =>
      have hi := i.ite_candidate?_eq_add candidates
      unfold accessCount countOf at ih ⊢
      rw [List.countP_cons, List.countP_cons, List.countP_cons, ih, hi]
      omega

theorem Method.accessCount_eq_add (m : Method) :
    m.accessCount candidates
      = m.countOf candidates .static + m.countOf candidates .object := by
  rcases m with ⟨token, name, _ | b⟩
  · rfl
  · exact b.code.accessCount_eq_add

theorem TypeDef.accessCount_eq_add (t : TypeDef) :
    t.accessCount candidates
      = t.countOf candidates .static + t.countOf candidates .object := by
  unfold accessCount countOf
  rw [← List.sum_map_add]
  exact congrArg List.sum (List.map_congr_left fun m _ => m.accessCount_eq_add)

namespace Module

variable {mod : Module}

theorem accessCountAt_eq_add (mod : Module) (token : Token) :
    mod.accessCountAt candidates token
      = mod.countAt candidates .static token + mod.countAt candidates .object token := by
  unfold accessCountAt countAt
  cases mod.type token with
  | ok t => exact t.accessCount_eq_add
  | error e => rfl

/-- A number changes with a type only where the token of the type is looked up. -/
theorem countAt_replace {front back : List TypeDef} {t t' : TypeDef} {token : Token}
    (hmod : mod.types = front ++ t :: back) (htoken : t'.token = t.token)
    (hcount : t.token = token → t'.countOf candidates storage = t.countOf candidates storage) :
    countAt candidates storage { mod with types := front ++ t' :: back } token
      = countAt candidates storage mod token := by
  unfold countAt type
  simp only [hmod, List.find?_append, List.find?_cons, htoken]
  cases front.find? (fun u => u.token == token) with
  | some u => rfl
  | none =>
      cases ht : t.token == token with
      | true => exact hcount (beq_iff_eq.mp ht)
      | false => rfl

end Module

/-! ## What redirecting leaves -/

/-- Static accesses are gone, those through an object are left. -/
theorem Walk.Means.isAccess_eq {method : Token} {i i' : Instruction}
    (h : Means candidates bindings method i i'.meaning) (storage : Storage) :
    i'.isAccess candidates storage
      = (i.isAccess candidates storage && storage == .object) := by
  by_cases hstatic : i.isAccess candidates .static = true
  · -- a static access has become an access to a variable
    cases hfield : i.fieldToken? with
    | none =>
        rw [Instruction.isAccess_of_none hfield] at hstatic
        cases hstatic
    | some field =>
        obtain ⟨storage', kind, rfl⟩ := Instruction.eq_of_fieldToken? hfield
        rw [Instruction.isAccess_field, Bool.and_eq_true, beq_iff_eq] at hstatic
        obtain ⟨hc, rfl⟩ := hstatic
        obtain ⟨slot, _, hmeaning⟩ := h.of_static hc
        rw [Instruction.isAccess_eq_meaning, hmeaning, Instruction.isAccess_field]
        cases storage <;> simp [Meaning.fieldAccess?]
  · -- any other instruction keeps its meaning
    have hmeaning : i'.meaning = i.meaning := by
      refine h.of_other fun kind field hi hc => hstatic ?_
      rw [hi, Instruction.isAccess_field, hc]
      rfl
    rw [Instruction.isAccess_eq_meaning, hmeaning, ← Instruction.isAccess_eq_meaning]
    cases storage with
    | object => simp
    | static => simpa using hstatic

theorem Code.countOf_of_means {method : Token} {code code' : Code}
    (h : List.Forall₂ (Walk.Means candidates bindings method) code
      (code'.map Instruction.meaning)) :
    code'.countOf candidates storage
      = if storage = .object then code.countOf candidates storage else 0 := by
  rw [List.forall₂_map_right_iff] at h
  unfold countOf
  induction h with
  | nil => simp
  | cons hi _ ih =>
      rw [List.countP_cons, List.countP_cons, ih, hi.isAccess_eq storage]
      cases storage <;> simp

theorem Method.Recovered.countOf_eq {m m' : Method} (h : m.Recovered candidates bindings m') :
    m'.countOf candidates storage
      = if storage = .object then m.countOf candidates storage else 0 := by
  rcases m with ⟨token, name, body⟩
  rcases m' with ⟨token', name', body'⟩
  obtain ⟨_, hbody⟩ := h
  cases hbody with
  | none => simp [countOf]
  | some hcode => exact Code.countOf_of_means hcode

theorem TypeDef.Recovered.countOf_eq {t t' : TypeDef} (h : t.Recovered candidates bindings t') :
    t'.countOf candidates storage
      = if storage = .object then t.countOf candidates storage else 0 := by
  unfold Recovered at h
  unfold countOf
  generalize t.methods = methods at h ⊢
  generalize t'.methods = methods' at h ⊢
  induction h with
  | nil => simp
  | cons hm _ ih =>
      rw [List.map_cons, List.map_cons, List.sum_cons, List.sum_cons, ih, hm.countOf_eq]
      split_ifs <;> rfl

namespace Recovery

variable {p : Recovery} {mod : Module} {token : Token} {tokens : List Token}

/-! ## What calls count -/

/-- Redirecting counts all accesses. -/
theorem redirects_redirectMethods {t : TypeDef} {changed : Bool}
    (h : (p.redirectMethods t.methods).result = .ok changed) :
    (p.redirectMethods t.methods).pass.redirects
      = p.redirects + t.accessCount (p.candidates.getD []) := by
  have hcounted := (ledger_redirectMethods h).counted
  rw [List.length_flatMap] at hcounted
  simp only [Method.length_accesses] at hcounted
  exact hcounted

/-- A successful call counts the accesses of the type that it reaches, and the static ones are gone
afterwards. -/
theorem counts_process {changed : Bool} (hok : (p.process mod token).result = .ok changed) :
    let after := (p.process mod token).mod
    (p.process mod token).pass.redirects
        = p.redirects + mod.accessCountAt (p.candidatesIn mod) token ∧
      after.countAt (p.candidatesIn mod) .static token = 0 ∧
      (∀ other, other ≠ token → after.countAt (p.candidatesIn mod) .static other
        = mod.countAt (p.candidatesIn mod) .static other) ∧
      ∀ other, after.countAt (p.candidatesIn mod) .object other
        = mod.countAt (p.candidatesIn mod) .object other := by
  intro after
  rcases forall_or_exists_first (fun t : TypeDef => t.token == token) mod.types with
    hnone | ⟨front, t, back, hmod, ht, hfront⟩
  · rw [(process_missing fun t ht => by simpa using hnone t ht).1] at hok
    cases hok
  obtain rfl : t.token = token := by simpa using ht
  have hfirst : ∀ u ∈ front, u.token ≠ t.token := fun u hu => by simpa using hfront u hu
  obtain ⟨hresult, hpass, hafter⟩ := process_at (p := p) hmod hfirst
  have hmethods := hresult.symm.trans hok
  have hcounted := redirects_redirectMethods hmethods
  have hrecovered : t.Recovered (p.candidatesIn mod)
      ((p.locate mod).1.redirectMethods t.methods).pass.bindings
      { t with methods := ((p.locate mod).1.redirectMethods t.methods).part } := by
    have h := recovered_redirectMethods hmethods
    rw [locate_pass] at h ⊢
    exact h
  rw [locate_pass] at hcounted
  have htype : mod.type t.token = .ok t :=
    Module.type_eq_ok_iff.mpr ⟨front, back, hmod, rfl, hfirst⟩
  have htype' : after.type t.token = .ok _ :=
    Module.type_eq_ok_iff.mpr ⟨front, back, congrArg Module.types hafter, rfl, hfirst⟩
  refine ⟨?_, ?_, fun other hne => ?_, fun other => ?_⟩
  · unfold Module.accessCountAt
    rw [hpass, locate_pass, hcounted, htype]
    rfl
  · unfold Module.countAt
    rw [htype']
    exact hrecovered.countOf_eq
  · rw [show after = _ from hafter]
    exact Module.countAt_replace hmod rfl fun heq => absurd heq.symm hne
  · rw [show after = _ from hafter]
    exact Module.countAt_replace hmod rfl fun _ => hrecovered.countOf_eq

theorem countAt_finalize (p : Recovery) (mod : Module) (token : Token) :
    (p.finalize mod).mod.countAt candidates storage token
      = mod.countAt candidates storage token := by
  obtain ⟨_, _, hmod | ⟨_, front, t, back, fields, htypes, hmod⟩⟩ := p.finalize_cases mod
  · rw [hmod]
  · rw [hmod]
    exact Module.countAt_replace htypes rfl fun _ => rfl

/-- A sum over the distinct tokens of several calls, where what the first call finds is gone
afterwards. -/
theorem sum_tokens_cons {f g : Token → Nat} {first : Token} (rest : List Token)
    (hgone : g first = 0) (hother : ∀ other, other ≠ first → g other = f other) :
    ∑ token ∈ (first :: rest).toFinset, f token = f first + ∑ token ∈ rest.toFinset, g token := by
  calc ∑ token ∈ (first :: rest).toFinset, f token
      = f first + ∑ token ∈ rest.toFinset.erase first, f token := by
        rw [List.toFinset_cons, ← Finset.add_sum_erase _ _ (Finset.mem_insert_self _ _),
          Finset.erase_insert_eq_erase]
    _ = f first + ∑ token ∈ rest.toFinset.erase first, g token := by
        refine congrArg _ (Finset.sum_congr rfl fun token htoken => ?_)
        exact (hother token (Finset.ne_of_mem_erase htoken)).symm
    _ = f first + ∑ token ∈ rest.toFinset, g token := by
        rw [Finset.sum_erase _ hgone]

/-- **What a session counts.** Every call counts the accesses through an object, but only the first
call for a type counts its static accesses. -/
theorem redirects_session (hok : (p.session mod (tokens.map .process)).Succeeds) :
    let s := p.session mod (tokens.map .process)
    s.pass.redirects
        = p.redirects + ∑ token ∈ tokens.toFinset, mod.countAt (p.candidatesIn mod) .static token
          + (tokens.map (mod.countAt (p.candidatesIn mod) .object)).sum ∧
      (∀ token, token ∈ tokens ∨ mod.countAt (p.candidatesIn mod) .static token = 0 →
        s.mod.countAt (p.candidatesIn mod) .static token = 0) ∧
      ∀ token, s.mod.countAt (p.candidatesIn mod) .object token
        = mod.countAt (p.candidatesIn mod) .object token := by
  induction tokens generalizing p mod with
  | nil => exact ⟨rfl, fun token h => h.resolve_left List.not_mem_nil, fun token => rfl⟩
  | cons first rest ih =>
      obtain ⟨changed, hfirst⟩ := hok _ List.mem_cons_self
      obtain ⟨hcounted, hgone, hother, hobject⟩ := counts_process hfirst
      have hrest : ((p.process mod first).pass.session (p.process mod first).mod
          (rest.map .process)).Succeeds := fun r hr => hok r (List.mem_cons_of_mem _ hr)
      have hlater := ih hrest
      rw [candidatesIn_process] at hlater
      obtain ⟨hredirects, hgone', hobject'⟩ := hlater
      refine ⟨?_, fun token htoken => hgone' token ?_, fun token =>
        (hobject' token).trans (hobject token)⟩
      · refine hredirects.trans ?_
        rw [hcounted, Module.accessCountAt_eq_add, funext hobject,
          sum_tokens_cons rest hgone hother, List.map_cons, List.sum_cons]
        omega
      · by_cases heq : token = first
        · exact Or.inr (heq ▸ hgone)
        · rw [hother token heq]
          exact htoken.imp_left fun h => (List.mem_cons.mp h).resolve_left heq

/-! ## Calls that are repeated -/

/-- A sum over all calls, by the first call for each token and the others. -/
theorem sum_map_tokens (tokens : List Token) (f : Token → Nat) :
    (tokens.map f).sum
      = ∑ token ∈ tokens.toFinset, f token
        + ∑ token ∈ tokens.toFinset, (tokens.count token - 1) * f token := by
  rw [Finset.sum_list_map_count, ← Finset.sum_add_distrib]
  refine Finset.sum_congr rfl fun token htoken => ?_
  have hpos : 1 ≤ tokens.count token := List.one_le_count_iff.mpr (List.mem_toFinset.mp htoken)
  obtain ⟨more, hmore⟩ := Nat.exists_eq_add_of_le hpos
  rw [hmore, smul_eq_mul, Nat.add_mul, Nat.one_mul, Nat.add_sub_cancel_left]

theorem sum_repeated_eq_zero_iff (tokens : List Token) (f : Token → Nat) :
    ∑ token ∈ tokens.toFinset, (tokens.count token - 1) * f token = 0 ↔
      ∀ token, 1 < tokens.count token → f token = 0 := by
  rw [Finset.sum_eq_zero_iff]
  constructor
  · intro h token hmore
    have hmem : token ∈ tokens := List.count_pos_iff.mp (by omega)
    refine (Nat.mul_eq_zero.mp (h token (List.mem_toFinset.mpr hmem))).resolve_left ?_
    omega
  · intro h token _
    rcases Nat.lt_or_ge 1 (tokens.count token) with hmore | honce
    · rw [h token hmore, Nat.mul_zero]
    · rw [Nat.sub_eq_zero_of_le honce, Nat.zero_mul]

/-- A full run over code without static accesses counts those through an object. -/
theorem redirects_fullRun (hok : (p.session mod (fullRun mod)).Succeeds)
    (hgone : ∀ token ∈ mod.typeTokens, mod.countAt (p.candidatesIn mod) .static token = 0) :
    (p.session mod (fullRun mod)).pass.redirects
      = p.redirects + (mod.typeTokens.map (mod.countAt (p.candidatesIn mod) .object)).sum := by
  obtain ⟨hresults, hpass, _⟩ := p.session_finalize mod (mod.typeTokens.map .process)
  have hcounted := (redirects_session fun r hr =>
    hok r (hresults ▸ List.mem_append_left _ hr)).1
  rw [Finset.sum_eq_zero fun token htoken => hgone token (List.mem_toFinset.mp htoken),
    Nat.add_zero] at hcounted
  exact (congrArg Recovery.redirects hpass).trans hcounted

/-- The second full run of a recovery counts what the first one left in the code. -/
theorem redirects_again (config : RecoveryConfig) (mod : Module)
    (hok : (session { config } mod (fullRun mod)).Succeeds) :
    let s := session { config } mod (fullRun mod)
    let again := s.pass.session s.mod (fullRun s.mod)
    again.pass.redirects
      = s.pass.redirects
        + (mod.typeTokens.map
            (mod.countAt (Candidate.collect mod.globalFields) .object)).sum := by
  intro s
  -- the first run, up to its last call
  obtain ⟨hresults, hpass, hmod, _⟩ :=
    session_finalize { config } mod (mod.typeTokens.map .process)
  have hok₀ : (session { config } mod (mod.typeTokens.map .process)).Succeeds := fun r hr =>
    hok r (hresults ▸ List.mem_append_left _ hr)
  obtain ⟨_, hgone, hobject⟩ := redirects_session hok₀
  have htokens := ((tracked_start config mod).session mod.typeTokens).typeTokens_eq
  have hcandidates := fun h : mod.typeTokens ≠ [] => session_candidates h { config } mod
  have hsettled := fun token (h : token ∈ mod.typeTokens) =>
    settledAt_session hok₀ (Or.inl h)
  rw [show s.pass = _ from hpass, show s.mod = _ from hmod]
  generalize session { config } mod (mod.typeTokens.map .process) = first at *
  -- the second run, which finds the candidates known and no static access to them
  have hafter : (first.pass.finalize first.mod).mod.typeTokens = mod.typeTokens :=
    (first.pass.finalize_typeTokens first.mod).trans htokens
  have hcount : ∀ token ∈ mod.typeTokens, ∀ storage,
      (first.pass.finalize first.mod).mod.countAt
          (first.pass.candidatesIn (first.pass.finalize first.mod).mod) storage token
        = first.mod.countAt (Candidate.collect mod.globalFields) storage token := by
    intro token htoken storage
    rw [countAt_finalize]
    unfold candidatesIn
    rw [hcandidates (List.ne_nil_of_mem htoken)]
    rfl
  have hagain := (again_of_settled (fun h => hcandidates (htokens ▸ h)) (htokens ▸ hsettled)).1
  refine (redirects_fullRun (fun r hr => ⟨false, hagain r hr⟩) fun token htoken => ?_).trans ?_
  · rw [hafter] at htoken
    exact (hcount token htoken .static).trans (hgone token (Or.inl htoken))
  · rw [hafter]
    refine congrArg (fun counts : List Nat => first.pass.redirects + counts.sum) ?_
    exact List.map_congr_left fun token htoken =>
      (hcount token htoken .object).trans (hobject token)

/-- The summaries say how many accesses were counted. -/
theorem summaries_eq_iff (p q : Recovery) :
    p.summaries = q.summaries ↔ p.redirects = q.redirects := by
  constructor
  · intro h
    unfold summaries at h
    split_ifs at h with hp hq hq
    · exact hp.trans hq.symm
    · have hmessage := (Summary.mk.inj (List.cons.inj h).1).1
      rw [String.append_left_inj, String.append_right_inj, Nat.toString_eq_ofList_toDigits,
        Nat.toString_eq_ofList_toDigits, String.ofList_inj] at hmessage
      have hread := congrArg (fun digits => Nat.ofDigitChars 10 digits 0) hmessage
      simpa only [Nat.ofDigitChars_ten_toDigits] using hread
  · intro h
    unfold summaries
    rw [h]

/-- **How often an access is counted.** Let a new recovery process types by their tokens, in any
order and possibly again and again, and let all calls succeed. Then it counts the accesses to
candidates in these types, and for each further call those through an object once more. So its
counter is the number of accesses exactly if no type that was processed more than once has an access
through an object. A second full run adds the number of all accesses through an object, and the
summary stays the same exactly if there is none. Types may share a token: then it stands for the
first of them, since no call reaches any other. -/
theorem redirects_of_calls (config : RecoveryConfig) (mod : Module) :
    let candidates := Candidate.collect mod.globalFields
    (∀ tokens : List Token, (session { config } mod (tokens.map .process)).Succeeds →
      let s := session { config } mod (tokens.map .process)
      s.pass.redirects
          = ∑ token ∈ tokens.toFinset, mod.accessCountAt candidates token
            + ∑ token ∈ tokens.toFinset,
                (tokens.count token - 1) * mod.countAt candidates .object token ∧
        (s.pass.redirects = ∑ token ∈ tokens.toFinset, mod.accessCountAt candidates token ↔
          ∀ token, 1 < tokens.count token → mod.countAt candidates .object token = 0)) ∧
    ((session { config } mod (fullRun mod)).Succeeds →
      let s := session { config } mod (fullRun mod)
      let again := s.pass.session s.mod (fullRun s.mod)
      again.pass.redirects
          = s.pass.redirects + (mod.typeTokens.map (mod.countAt candidates .object)).sum ∧
        (again.pass.summaries = s.pass.summaries ↔
          ∀ token ∈ mod.typeTokens, mod.countAt candidates .object token = 0)) := by
  intro candidates
  constructor
  · intro tokens hok s
    have hcounted : s.pass.redirects
        = ∑ token ∈ tokens.toFinset, mod.accessCountAt candidates token
          + ∑ token ∈ tokens.toFinset,
              (tokens.count token - 1) * mod.countAt candidates .object token := by
      calc s.pass.redirects
          = 0 + ∑ token ∈ tokens.toFinset, mod.countAt candidates .static token
              + (tokens.map (mod.countAt candidates .object)).sum := (redirects_session hok).1
        _ = ∑ token ∈ tokens.toFinset,
                (mod.countAt candidates .static token + mod.countAt candidates .object token)
              + ∑ token ∈ tokens.toFinset,
                (tokens.count token - 1) * mod.countAt candidates .object token := by
            rw [sum_map_tokens, Nat.zero_add, ← Nat.add_assoc, ← Finset.sum_add_distrib]
        _ = _ := by simp only [Module.accessCountAt_eq_add]
    refine ⟨hcounted, ?_⟩
    rw [hcounted, Nat.add_eq_left, sum_repeated_eq_zero_iff]
  · intro hok s again
    have hagain : again.pass.redirects = _ := redirects_again config mod hok
    refine ⟨hagain, ?_⟩
    rw [summaries_eq_iff, hagain, Nat.add_eq_left, List.sum_eq_zero_iff, List.forall_mem_map]

theorem redirects_of_calls_hoistedCounter :
    let tokens : List Token := [⟨0x02000002⟩, ⟨0x02000001⟩, ⟨0x02000002⟩]
    let s := session {} hoistedCounter (tokens.map .process)
    let full := session {} hoistedCounter (fullRun hoistedCounter)
    let again := full.pass.session full.mod (fullRun full.mod)
    s.Succeeds ∧ s.pass.redirects = 2 + 1 ∧ full.Succeeds ∧
      again.pass.redirects = full.pass.redirects + 1 := by
  intro tokens s full again
  have hok : s.Succeeds := by decide +kernel
  have hfull : full.Succeeds := by decide +kernel
  obtain ⟨hcalls, hruns⟩ := redirects_of_calls {} hoistedCounter
  exact ⟨hok, (hcalls tokens hok).1.trans (by decide +kernel), hfull,
    (hruns hfull).1.trans (by decide +kernel)⟩

/-- A module with two accesses, of which the second run counts one again. -/
theorem second_run_counts_again :
    let s := session {} hoistedCounter (fullRun hoistedCounter)
    let again := s.pass.session s.mod (fullRun s.mod)
    hoistedCounter.typeTokens.Nodup ∧ (hoistedCounter.methods.map Method.token).Nodup ∧
      s.Succeeds ∧ again.Succeeds ∧ hoistedCounter.accesses.length = 2 ∧
      s.pass.redirects = 2 ∧ again.pass.redirects = 3 ∧
      again.pass.summaries ≠ s.pass.summaries := by
  decide +kernel

end Recovery

end LocalRecovery
