import LocalRecovery.Proofs.Session

set_option autoImplicit false

/-! # Bindings and variables

The bindings of a method point into the list of its variables, which another structure owns. The two
stay in step: behind the declared variables of a body stands one variable for each candidate that is
bound in the method, in the order in which they were bound (`Accounts`).

A walk adds to both lists at once or to neither, so it keeps this even when it breaks off
(`accounted_run`); it does not touch the bindings of other methods. Over all calls of a session this
becomes the invariant `Consistent` between the module at the beginning and the one at hand. What the
bindings say about the variables is read off it in the end (`Accounts.exists_of_find?`,
`Accounts.existsUnique_field`).
-/

namespace LocalRecovery

/-! ## One body -/

/-- The variables at hand are the declared ones followed by one for each of the candidates `bound`,
and the bindings of the method are the slots of these. -/
structure Accounts (candidates : List Candidate) (bindings : List Binding) (method : Token)
    (declared current : List LocalVariable) (bound : List Candidate) : Prop where
  locals : current = declared ++ bound.map fun c => { signature := c.signature }
  known : ∀ c ∈ bound, Candidate.find? candidates c.token = some c
  nodup : (bound.map Candidate.token).Nodup
  room : bound = [] ∨ declared.length + bound.length ≤ Body.localLimit
  slot : ∀ (k : Nat) (c : Candidate), bound[k]? = some c →
    Binding.find? bindings c.token method = some (UInt16.ofNat (declared.length + k))
  unbound : ∀ field, field ∉ bound.map Candidate.token → Binding.find? bindings field method = none

/-- The variables account for the bindings, with some list of bound candidates. -/
def Accounted (candidates : List Candidate) (bindings : List Binding) (method : Token)
    (declared current : List LocalVariable) : Prop :=
  ∃ bound, Accounts candidates bindings method declared current bound

section

variable {candidates : List Candidate} {bindings : List Binding} {method : Token}
  {declared current : List LocalVariable} {bound : List Candidate}

/-- Nothing is bound and nothing was added. -/
theorem accounted_unbound (candidates : List Candidate)
    (h : ∀ field, Binding.find? bindings field method = none) :
    Accounted candidates bindings method declared declared :=
  ⟨[], by simp, by simp, by simp, Or.inl rfl, by simp, fun field _ => h field⟩

/-- Only the lookups for the method matter. -/
theorem Accounted.congr {after : List Binding}
    (h : Accounted candidates bindings method declared current)
    (hsame : ∀ field, Binding.find? after field method = Binding.find? bindings field method) :
    Accounted candidates after method declared current := by
  obtain ⟨bound, hbound⟩ := h
  refine ⟨bound, { hbound with slot := fun k c hc => ?_, unbound := fun field hf => ?_ }⟩
  · rw [hsame]
    exact hbound.slot k c hc
  · rw [hsame]
    exact hbound.unbound field hf

theorem Accounts.length_eq (h : Accounts candidates bindings method declared current bound) :
    current.length = declared.length + bound.length := by
  rw [h.locals, List.length_append, List.length_map]

/-- A candidate without a binding is not among the bound ones. -/
theorem Accounts.not_mem (h : Accounts candidates bindings method declared current bound)
    {field : Token} (hf : Binding.find? bindings field method = none) :
    field ∉ bound.map Candidate.token := by
  intro hmem
  obtain ⟨c, hc, rfl⟩ := List.mem_map.mp hmem
  obtain ⟨k, hk⟩ := List.mem_iff_getElem?.mp hc
  rw [h.slot k c hk] at hf
  cases hf

theorem getElem?_concat_cases {α : Type} {l : List α} {a b : α} {k : Nat}
    (h : (l ++ [a])[k]? = some b) : l[k]? = some b ∨ (k = l.length ∧ a = b) := by
  rcases Nat.lt_or_ge k l.length with hk | hk
  · rw [List.getElem?_append_left hk] at h
    exact Or.inl h
  · have hlt := (List.getElem?_eq_some_iff.mp h).1
    rw [List.length_append, List.length_singleton] at hlt
    have heq : k = l.length := by omega
    rw [heq, List.getElem?_concat_length, Option.some.injEq] at h
    exact Or.inr ⟨heq, h⟩

/-- Declaring a variable for a candidate that has none puts it behind the others. -/
theorem Accounts.declare {w : Walk} {c : Candidate}
    (h : Accounts candidates w.bindings method declared w.locals bound)
    (hc : Candidate.find? candidates c.token = some c)
    (hf : Binding.find? w.bindings c.token method = none)
    (hlt : w.locals.length < Body.localLimit) :
    Accounts candidates (w.declare method c).bindings method declared (w.declare method c).locals
      (bound ++ [c]) := by
  have hnew := h.not_mem hf
  have hlen := h.length_eq
  constructor
  · show w.locals ++ [_] = _
    rw [h.locals, List.map_append, List.append_assoc]
    rfl
  · intro d hd
    rcases List.mem_append.mp hd with hd | hd
    · exact h.known d hd
    · rw [List.mem_singleton.mp hd]
      exact hc
  · rw [List.map_append, List.map_singleton]
    exact List.nodup_append.mpr ⟨h.nodup, List.nodup_singleton _, fun a ha b hb hab =>
      hnew (List.mem_singleton.mp hb ▸ hab ▸ ha)⟩
  · right
    rw [List.length_append, List.length_singleton]
    omega
  · intro k d hd
    show Binding.find? (⟨c.token, method, _⟩ :: w.bindings) _ _ = _
    rw [Binding.find?_cons]
    rcases getElem?_concat_cases hd with hold | ⟨rfl, rfl⟩
    · -- the new binding is for another field and does not hide the old one
      have hne : c.token ≠ d.token := fun heq =>
        hnew (heq ▸ List.mem_map_of_mem (List.mem_of_getElem? hold))
      rw [if_neg fun hboth => hne hboth.1]
      exact h.slot k d hold
    · rw [if_pos ⟨rfl, rfl⟩, hlen]
  · intro field hfield
    rw [List.map_append, List.mem_append, not_or] at hfield
    show Binding.find? (⟨c.token, method, _⟩ :: w.bindings) _ _ = _
    rw [Binding.find?_cons, if_neg fun hboth => hfield.2 (by simp [← hboth.1])]
    exact h.unbound field hfield.1

end

/-- A walk keeps bindings and variables in step, whether it breaks off or not. -/
theorem accounted_run {config : RecoveryConfig} {candidates : List Candidate} {method : Token}
    {declared : List LocalVariable} (code : Code) (index : Nat) {w : Walk}
    (h : Accounted candidates w.bindings method declared w.locals) :
    Accounted candidates (Walk.run config candidates method index code w).walk.bindings method
      declared (Walk.run config candidates method index code w).walk.locals := by
  refine Walk.run_preserves
    (P := fun v => Accounted candidates v.bindings method declared v.locals) code ?_ index h
  rintro _ i _ v move hs ⟨bound, hbound⟩
  rcases Walk.step_cases hs with ⟨hb, hl⟩ | ⟨c, hc, hf, hlt, hb, hl⟩
  · rw [hb, hl]
    exact ⟨bound, hbound⟩
  · rw [hb, hl]
    exact ⟨_, hbound.declare (Instruction.find?_of_candidate? hc).2 hf hlt⟩

/-! ## Methods -/

/-- A method and what it was at the beginning. -/
def Method.Accounted (candidates : List Candidate) (bindings : List Binding) (m₀ m : Method) :
    Prop :=
  m.token = m₀.token ∧
    Option.Rel
      (fun b₀ b : Body => LocalRecovery.Accounted candidates bindings m₀.token b₀.locals b.locals)
      m₀.body m.body

theorem Method.Accounted.congr {candidates : List Candidate} {before after : List Binding}
    {m₀ m : Method} (h : m₀.Accounted candidates before m)
    (hsame : ∀ field,
      Binding.find? after field m₀.token = Binding.find? before field m₀.token) :
    m₀.Accounted candidates after m :=
  ⟨h.1, rel_imp (fun _ _ hb => hb.congr hsame) h.2⟩

/-- The methods have the tokens they had at the beginning. -/
theorem map_token_of_accounted {candidates : List Candidate} {bindings : List Binding}
    {methods₀ methods : List Method}
    (h : List.Forall₂ (Method.Accounted candidates bindings) methods₀ methods) :
    methods.map Method.token = methods₀.map Method.token :=
  map_eq_of_forall₂ (fun _ _ hm => hm.1) h

/-- Bindings of other methods may change. -/
theorem accounted_congr {candidates : List Candidate} {before after : List Binding}
    {methods₀ methods : List Method}
    (h : List.Forall₂ (Method.Accounted candidates before) methods₀ methods)
    (hsame : ∀ m₀ ∈ methods₀, ∀ field,
      Binding.find? after field m₀.token = Binding.find? before field m₀.token) :
    List.Forall₂ (Method.Accounted candidates after) methods₀ methods := by
  have hboth := (List.forall₂_and_left _ _).mpr ⟨hsame, h⟩
  exact hboth.imp fun m₀ m hm => hm.2.congr hm.1

namespace Recovery

theorem accounted_redirectMethod {p : Recovery} {m₀ m : Method}
    (h : m₀.Accounted (p.candidates.getD []) p.bindings m) :
    m₀.Accounted (p.candidates.getD []) (p.redirectMethod m).pass.bindings
      (p.redirectMethod m).part := by
  obtain ⟨htoken, hbody⟩ := h
  unfold redirectMethod
  split
  · rename_i hnone
    exact ⟨htoken, hbody⟩
  · rename_i b hb
    rw [hb] at hbody
    refine ⟨htoken, ?_⟩
    simp only [redirectBody_pass]
    generalize m₀.body = body₀ at hbody ⊢
    cases hbody with
    | some hlocals =>
        refine Option.Rel.some ?_
        rw [redirectBody_locals, htoken]
        exact accounted_run b.code 0 hlocals

/-- Redirecting accesses in methods of different names. Each walk leaves the methods before and after
it alone. -/
theorem accounted_redirectMethods {methods₀ methods : List Method} {p : Recovery}
    (h : List.Forall₂ (Method.Accounted (p.candidates.getD []) p.bindings) methods₀ methods)
    (hnodup : (methods₀.map Method.token).Nodup) :
    List.Forall₂
      (Method.Accounted (p.candidates.getD []) (p.redirectMethods methods).pass.bindings)
      methods₀ (p.redirectMethods methods).part := by
  induction methods generalizing methods₀ p with
  | nil =>
      rw [List.forall₂_nil_right_iff.mp h]
      exact List.Forall₂.nil
  | cons m rest ih =>
      obtain ⟨m₀, rest₀, hm, hrest, rfl⟩ := List.forall₂_cons_right_iff.mp h
      rw [List.map_cons, List.nodup_cons] at hnodup
      have hcandidates := (p.redirectMethod_pass m).2
      have hm₁ := accounted_redirectMethod hm
      have hrest₁ : List.Forall₂
          (Method.Accounted (p.candidates.getD []) (p.redirectMethod m).pass.bindings)
          rest₀ rest := by
        refine accounted_congr hrest fun n₀ hn₀ field => ?_
        refine p.find?_redirectMethod_of_ne (fun heq => absurd ?_ hnodup.1) field
        rw [← hm.1, heq]
        exact List.mem_map_of_mem hn₀
      unfold redirectMethods
      simp only
      split
      · exact List.Forall₂.cons hm₁ hrest₁
      · rw [← hcandidates] at hrest₁
        have hrest₂ := ih hrest₁ hnodup.2
        rw [hcandidates] at hrest₂
        refine List.Forall₂.cons (hm₁.congr fun field => ?_) hrest₂
        -- the methods behind `m` have other names
        refine find?_redirectMethods_of_ne _ (fun n hn heq => absurd ?_ hnodup.1) field
        rw [← heq, ← map_token_of_accounted hrest]
        exact List.mem_map_of_mem hn

end Recovery

/-! ## Sessions -/

/-- The recovery and the module at hand, against the module at the beginning. -/
structure Consistent (original : Module) (p : Recovery) (mod : Module) : Prop where
  located : (p.candidates = none ∧ p.bindings = [] ∧ mod = original) ∨
    p.candidates = some (Candidate.collect original.globalFields)
  accounted : List.Forall₂ (Method.Accounted (p.candidates.getD []) p.bindings)
    original.methods mod.methods
  unbound : ∀ method, (∀ m ∈ original.methods, m.token = method → m.body = none) →
    ∀ field, Binding.find? p.bindings field method = none

theorem accounted_start (candidates : List Candidate) (methods : List Method) :
    List.Forall₂ (Method.Accounted candidates []) methods methods := by
  refine List.forall₂_same.mpr fun m _ => ⟨rfl, ?_⟩
  cases m.body with
  | none => exact Option.Rel.none
  | some b => exact Option.Rel.some (accounted_unbound candidates fun _ => rfl)

theorem consistent_start (config : RecoveryConfig) (mod : Module) :
    Consistent mod { config } mod where
  located := Or.inl ⟨rfl, rfl, rfl⟩
  accounted := accounted_start [] mod.methods
  unbound _ _ _ := rfl

namespace Consistent

variable {original mod : Module} {p : Recovery}

theorem locate (h : Consistent original p mod) : Consistent original (p.locate mod).1 mod := by
  rw [Recovery.locate_pass]
  unfold Recovery.candidatesIn
  rcases h.located with ⟨hnone, hbindings, rfl⟩ | hsome
  · rw [hnone]
    refine ⟨Or.inr rfl, ?_, h.unbound⟩
    simp only [hbindings]
    exact accounted_start _ _
  · have haccounted := h.accounted
    rw [hsome] at haccounted ⊢
    exact ⟨Or.inr rfl, haccounted, h.unbound⟩

/-- A method with a body had one at the beginning. -/
theorem body_eq_none (h : Consistent original p mod) {method : Token}
    (hnone : ∀ m ∈ original.methods, m.token = method → m.body = none) {m : Method}
    (hm : m ∈ mod.methods) (htoken : m.token = method) : m.body = none := by
  obtain ⟨m₀, hm₀, htoken₀, hbody⟩ := exists_of_forall₂_right h.accounted hm
  have hsome := isSome_eq_of_rel hbody
  rw [hnone m₀ hm₀ (htoken₀.symm.trans htoken)] at hsome
  exact Option.not_isSome_iff_eq_none.mp (by simp [hsome])

/-- A call of `process` works on the methods of one type. The others keep their names, and these are
different from those in the type. -/
theorem process (h : Consistent original p mod)
    (hnodup : (original.methods.map Method.token).Nodup) (token : Token) :
    Consistent original (p.process mod token).pass (p.process mod token).mod := by
  have hlocated := h.locate
  rcases p.process_cases mod token with ⟨hpass, hmod⟩ | ⟨front, t, back, htypes, hpass, hmod⟩
  · rw [hpass, hmod]
    exact hlocated
  · rw [hpass, hmod]
    have hcandidates := ((p.locate mod).1.redirectMethods_pass t.methods).2
    have hmethods : mod.methods
        = front.flatMap TypeDef.methods ++ (t.methods ++ back.flatMap TypeDef.methods) := by
      unfold Module.methods
      rw [htypes, List.flatMap_append, List.flatMap_cons]
    have haccounted := hlocated.accounted
    rw [hmethods] at haccounted
    obtain ⟨front₀, others₀, horiginal, hfront, hothers⟩ := exists_append_of_forall₂ haccounted
    obtain ⟨methods₀, back₀, rfl, hin, hback⟩ := exists_append_of_forall₂ hothers
    have hframe : ∀ name, name ∉ methods₀.map Method.token → ∀ field,
        Binding.find? ((p.locate mod).1.redirectMethods t.methods).pass.bindings field name
          = Binding.find? (p.locate mod).1.bindings field name := by
      intro name hname field
      refine Recovery.find?_redirectMethods_of_ne _ (fun m hm heq => absurd ?_ hname) field
      rw [← heq, ← map_token_of_accounted hin]
      exact List.mem_map_of_mem hm
    refine ⟨?_, ?_, ?_⟩
    · -- the candidates are known from here on
      right
      rw [hcandidates]
      rcases hlocated.located with ⟨hnone, _⟩ | hsome
      · rw [Recovery.locate_pass] at hnone
        cases hnone
      · exact hsome
    · rw [horiginal, List.map_append, List.map_append, List.nodup_append, List.nodup_append]
        at hnodup
      obtain ⟨_, ⟨hmethods₀, _, hbackwards⟩, hforwards⟩ := hnodup
      -- the methods in front of the type and behind it are framed, those in it are walked through
      rw [hcandidates, horiginal]
      unfold Module.methods
      simp only [List.flatMap_append, List.flatMap_cons]
      refine List.rel_append (accounted_congr hfront fun m₀ hm₀ => hframe _ fun hmem => ?_)
        (List.rel_append (Recovery.accounted_redirectMethods hin hmethods₀)
          (accounted_congr hback fun m₀ hm₀ => hframe _ fun hmem => ?_))
      · exact hforwards _ (List.mem_map_of_mem hm₀) _ (List.mem_append_left _ hmem) rfl
      · exact hbackwards _ hmem _ (List.mem_map_of_mem hm₀) rfl
    · intro method hnone field
      rw [Recovery.find?_redirectMethods_of_ne _ fun m hm htoken =>
        hlocated.body_eq_none hnone (by simp [hmethods, hm]) htoken]
      exact hlocated.unbound method hnone field

theorem finalize (h : Consistent original p mod) :
    Consistent original (p.finalize mod).pass (p.finalize mod).mod := by
  obtain ⟨hpass, _, hmod⟩ := p.finalize_cases mod
  rw [hpass]
  refine ⟨?_, ?_, h.unbound⟩
  · rcases h.located with ⟨hnone, hbindings, hsame⟩ | hsome
    · rcases hmod with hmod | ⟨hne, _⟩
      · exact Or.inl ⟨hnone, hbindings, hmod.trans hsame⟩
      · exact absurd hbindings hne
    · exact Or.inr hsome
  · rw [Recovery.finalize_methods]
    exact h.accounted

/-- Every session keeps the invariant. -/
theorem session (h : Consistent original p mod)
    (hnodup : (original.methods.map Method.token).Nodup) (calls : List Call) :
    Consistent original (p.session mod calls).pass (p.session mod calls).mod := by
  refine Recovery.session_preserves (P := Consistent original) ?_ calls h
  intro p mod c h
  cases c with
  | locate => exact h.locate
  | process token => exact h.process hnodup token
  | finalize => exact h.finalize

end Consistent

/-! ## What the bindings say -/

namespace Accounts

variable {candidates : List Candidate} {bindings : List Binding} {method : Token}
  {declared current : List LocalVariable} {bound : List Candidate}

/-- The numbers of the added variables stay below the limit, so that they are not cut off. -/
theorem toNat_slot (h : Accounts candidates bindings method declared current bound) {k : Nat}
    {c : Candidate} (hk : bound[k]? = some c) :
    (UInt16.ofNat (declared.length + k)).toNat = declared.length + k ∧
      declared.length + k < Body.localLimit := by
  have hlt : k < bound.length := (List.getElem?_eq_some_iff.mp hk).1
  have hroom : declared.length + bound.length ≤ Body.localLimit := by
    refine h.room.resolve_left fun hnil => ?_
    rw [hnil] at hlt
    exact Nat.not_lt_zero k hlt
  have hlimit : Body.localLimit = 65535 := rfl
  have hsize : UInt16.size = 65536 := rfl
  exact ⟨UInt16.toNat_ofNat_of_lt' (by omega), by omega⟩

/-- A binding is the slot of one of the added variables. -/
theorem exists_of_find? (h : Accounts candidates bindings method declared current bound)
    {field : Token} {slot : UInt16} (hf : Binding.find? bindings field method = some slot) :
    ∃ (k : Nat) (c : Candidate), bound[k]? = some c ∧ c.token = field ∧
      slot.toNat = declared.length + k ∧ slot.toNat < Body.localLimit := by
  have hmem : field ∈ bound.map Candidate.token := by
    by_contra hnot
    rw [h.unbound field hnot] at hf
    cases hf
  obtain ⟨c, hc, rfl⟩ := List.mem_map.mp hmem
  obtain ⟨k, hk⟩ := List.mem_iff_getElem?.mp hc
  obtain ⟨hnumber, hlimit⟩ := h.toNat_slot hk
  rw [h.slot k c hk, Option.some.injEq] at hf
  rw [← hf, hnumber]
  exact ⟨k, c, hk, rfl, rfl, hlimit⟩

theorem getElem?_add (h : Accounts candidates bindings method declared current bound) {k : Nat}
    {c : Candidate} (hk : bound[k]? = some c) :
    current[declared.length + k]? = some { signature := c.signature } := by
  rw [h.locals, List.getElem?_append_right (Nat.le_add_right _ _), Nat.add_sub_cancel_left,
    List.getElem?_map, hk]
  rfl

/-- Each added variable is bound to one field. -/
theorem existsUnique_field (h : Accounts candidates bindings method declared current bound)
    {position : Nat} (hge : declared.length ≤ position) (hlt : position < current.length) :
    ∃! field, (Binding.find? bindings field method).map UInt16.toNat = some position := by
  rw [h.length_eq] at hlt
  have hk : position - declared.length < bound.length := by omega
  obtain ⟨c, hget⟩ : ∃ c, bound[position - declared.length]? = some c :=
    ⟨_, List.getElem?_eq_getElem hk⟩
  refine ⟨c.token, ?_, ?_⟩
  · simp only
    rw [h.slot _ _ hget, Option.map_some, (h.toNat_slot hget).1, Nat.add_sub_cancel' hge]
  · intro field hfield
    obtain ⟨slot, hfind, hslot⟩ := Option.map_eq_some_iff.mp hfield
    obtain ⟨k, d, hd, rfl, hnumber, _⟩ := h.exists_of_find? hfind
    have hsame : k = position - declared.length := by omega
    rw [hsame, hget, Option.some.injEq] at hd
    rw [hd]

end Accounts

namespace Recovery

/-- **Bindings over whole sessions.** Let the methods of a module have different tokens, and let any
calls be made on it, in any order and whatever they return. Then each method keeps its place and its
body, and each body has the variables it had, followed by unpinned ones. The bindings of a method
and the added variables match one to one: each binding of a field is a number from the first added
variable on and below the limit, the variable of that number has the signature of the candidate, and
each added variable belongs to exactly one field. Nothing but a method with a body has bindings. -/
theorem session_bindings (config : RecoveryConfig) (mod : Module)
    (hnodup : (mod.methods.map Method.token).Nodup) (calls : List Call) :
    let s := session { config } mod calls
    s.mod.methods.length = mod.methods.length ∧
    (∀ (k : Nat) (m m' : Method), mod.methods[k]? = some m → s.mod.methods[k]? = some m' →
      m'.token = m.token ∧ m'.body.isSome = m.body.isSome ∧
      ∀ b b' : Body, m.body = some b → m'.body = some b' →
        (∃ added, b'.locals = b.locals ++ added ∧ ∀ v ∈ added, v.pinned = false) ∧
        (∀ (field : Token) (slot : UInt16), s.pass.binding? field m.token = some slot →
          b.locals.length ≤ slot.toNat ∧ slot.toNat < b'.locals.length ∧ slot.toNat < 65535 ∧
          ∃ c, s.pass.candidate? field = some c ∧
            b'.locals[slot.toNat]? = some { signature := c.signature }) ∧
        ∀ position, b.locals.length ≤ position → position < b'.locals.length →
          ∃! field, (s.pass.binding? field m.token).map UInt16.toNat = some position) ∧
    ∀ (field method : Token) (slot : UInt16), s.pass.binding? field method = some slot →
      ∃ m ∈ mod.methods, m.token = method ∧ m.body.isSome = true := by
  intro s
  have h : Consistent mod s.pass s.mod := (consistent_start config mod).session hnodup calls
  refine ⟨h.accounted.length_eq.symm, ?_, ?_⟩
  · intro k m m' hm hm'
    obtain ⟨htoken, hbody⟩ := forall₂_getElem? h.accounted hm hm'
    refine ⟨htoken, isSome_eq_of_rel hbody, ?_⟩
    intro b b' hb hb'
    rw [hb, hb'] at hbody
    obtain ⟨bound, haccounts⟩ := hbody
    refine ⟨⟨_, haccounts.locals, ?_⟩, ?_, fun position => haccounts.existsUnique_field⟩
    · intro v hv
      obtain ⟨c, _, rfl⟩ := List.mem_map.mp hv
      rfl
    · intro field slot hslot
      obtain ⟨k, c, hk, rfl, hnumber, hlimit⟩ := haccounts.exists_of_find? hslot
      have hlt : k < bound.length := (List.getElem?_eq_some_iff.mp hk).1
      have hlength := haccounts.length_eq
      refine ⟨by omega, by omega, hlimit, c, ?_, ?_⟩
      · exact haccounts.known c (List.mem_of_getElem? hk)
      · rw [hnumber]
        exact haccounts.getElem?_add hk
  · intro field method slot hslot
    by_contra hnone
    have hbodiless : ∀ m ∈ mod.methods, m.token = method → m.body = none := by
      intro m hm htoken
      by_contra hbody
      exact hnone ⟨m, hm, htoken, Option.isSome_iff_ne_none.mpr hbody⟩
    have hunbound := h.unbound method hbodiless field
    cases hunbound.symm.trans hslot

theorem session_bindings_hoistedCounter :
    let s := session {} hoistedCounter
      [.process ⟨0x02000009⟩, .process ⟨0x02000002⟩, .finalize, .process ⟨0x02000002⟩]
    (hoistedCounter.methods.map Method.token).Nodup ∧
      s.pass.binding? ⟨0x04000001⟩ ⟨0x06000001⟩ = some 1 ∧
      ∃ m' b' c, s.mod.methods[0]? = some m' ∧ m'.body = some b' ∧ 1 < b'.locals.length ∧
        s.pass.candidate? ⟨0x04000001⟩ = some c ∧
        b'.locals[1]? = some { signature := c.signature } ∧
        ∃! field, (s.pass.binding? field ⟨0x06000001⟩).map UInt16.toNat = some 1 := by
  intro s
  have hnodup : (hoistedCounter.methods.map Method.token).Nodup := by decide
  have hbinding : s.pass.binding? ⟨0x04000001⟩ ⟨0x06000001⟩ = some 1 := by decide +kernel
  refine ⟨hnodup, hbinding, ?_⟩
  obtain ⟨hlength, hmethods, _⟩ := session_bindings {} hoistedCounter hnodup
    [.process ⟨0x02000009⟩, .process ⟨0x02000002⟩, .finalize, .process ⟨0x02000002⟩]
  have hk : 0 < s.mod.methods.length := by rw [hlength]; decide
  obtain ⟨_, hbody, hlocals⟩ := hmethods 0 _ _ rfl (List.getElem?_eq_getElem hk)
  obtain ⟨b', hb'⟩ := Option.isSome_iff_exists.mp (hbody.trans rfl)
  obtain ⟨_, hslots, hunique⟩ := hlocals _ b' rfl hb'
  obtain ⟨_, hlt, _, c, hc, hget⟩ := hslots _ _ hbinding
  exact ⟨_, b', c, List.getElem?_eq_getElem hk, hb', hlt, hc, hget, hunique 1 (by decide) hlt⟩

end Recovery

end LocalRecovery
