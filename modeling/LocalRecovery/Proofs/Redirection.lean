import LocalRecovery.Proofs.Layout
import LocalRecovery.Proofs.Walk
import LocalRecovery.Recovery.Pass

set_option autoImplicit false

/-! # Redirecting accesses in bodies, methods and modules

The walk through a body, carried over to the methods of a type and to the calls of the recovery:
what `process` and `finalize` can do to a module and to the bindings is said here once
(`process_cases`, `finalize_cases`). All of it holds for calls that fail, too.
-/

namespace LocalRecovery

/-! ## Parts of a module -/

theorem updateFirst?_eq_none {α β : Type} {p : α → Bool} {update : α → β × α} {l : List α}
    (h : ∀ a ∈ l, p a = false) : updateFirst? p update l = none := by
  induction l with
  | nil => rfl
  | cons a rest ih =>
      unfold updateFirst?
      rw [h a List.mem_cons_self, ih fun b hb => h b (List.mem_cons_of_mem a hb)]
      rfl

theorem updateFirst?_append {α β : Type} {p : α → Bool} {update : α → β × α} {front back : List α}
    {a : α} (hfront : ∀ b ∈ front, p b = false) (ha : p a = true) :
    updateFirst? p update (front ++ a :: back)
      = some ((update a).1, front ++ (update a).2 :: back) := by
  induction front with
  | nil =>
      rw [List.nil_append, List.nil_append]
      unfold updateFirst?
      rw [if_pos ha]
  | cons b rest ih =>
      rw [List.cons_append, List.cons_append]
      unfold updateFirst?
      rw [hfront b List.mem_cons_self, ih fun c hc => hfront c (List.mem_cons_of_mem b hc)]
      rfl

/-- Either no element satisfies `p`, or there is a first one that does. -/
theorem forall_or_exists_first {α : Type} (p : α → Bool) (l : List α) :
    (∀ a ∈ l, p a = false) ∨
      ∃ front a back, l = front ++ a :: back ∧ p a = true ∧ ∀ b ∈ front, p b = false := by
  cases h : l.find? p with
  | none =>
      left
      simpa using h
  | some a =>
      obtain ⟨ha, front, back, hl, hfront⟩ := List.find?_eq_some_iff_append.mp h
      exact Or.inr ⟨front, a, back, hl, ha, by simpa using hfront⟩

theorem exists_of_forall₂_right {α β : Type} {R : α → β → Prop} {l : List α} {l' : List β}
    (h : List.Forall₂ R l l') {b : β} (hb : b ∈ l') : ∃ a ∈ l, R a b := by
  obtain ⟨k, hk⟩ := List.mem_iff_getElem?.mp hb
  have hlt : k < l.length := h.length_eq ▸ (List.getElem?_eq_some_iff.mp hk).1
  exact ⟨l.get ⟨k, hlt⟩, List.get_mem l _, forall₂_getElem? h (List.getElem?_eq_getElem hlt) hk⟩

theorem exists_of_forall₂_left {α β : Type} {R : α → β → Prop} {l : List α} {l' : List β}
    (h : List.Forall₂ R l l') {a : α} (ha : a ∈ l) : ∃ b ∈ l', R a b :=
  exists_of_forall₂_right h.flip ha

theorem exists_append_of_forall₂ {α β : Type} {R : α → β → Prop} {l : List α} {front back : List β}
    (h : List.Forall₂ R l (front ++ back)) :
    ∃ front₀ back₀, l = front₀ ++ back₀ ∧ List.Forall₂ R front₀ front ∧ List.Forall₂ R back₀ back :=
  ⟨l.take front.length, l.drop front.length, (List.take_append_drop _ l).symm,
    List.forall₂_take_append _ _ _ h, List.forall₂_drop_append _ _ _ h⟩

theorem map_eq_of_forall₂ {α β : Type} {R : α → α → Prop} {g : α → β}
    (hg : ∀ a a', R a a' → g a' = g a) {l l' : List α} (h : List.Forall₂ R l l') :
    l'.map g = l.map g := by
  induction h with
  | nil => rfl
  | cons ha _ ih => rw [List.map_cons, List.map_cons, hg _ _ ha, ih]

theorem forall₂_trans {α β γ : Type} {R : α → β → Prop} {S : β → γ → Prop} {T : α → γ → Prop}
    (htrans : ∀ a b c, R a b → S b c → T a c) {l₁ : List α} {l₂ : List β} {l₃ : List γ}
    (h₁ : List.Forall₂ R l₁ l₂) (h₂ : List.Forall₂ S l₂ l₃) : List.Forall₂ T l₁ l₃ := by
  induction h₁ generalizing l₃ with
  | nil =>
      cases h₂
      exact List.Forall₂.nil
  | cons hab _ ih =>
      obtain ⟨c, rest, hbc, hrest, rfl⟩ := List.forall₂_cons_left_iff.mp h₂
      exact List.Forall₂.cons (htrans _ _ _ hab hbc) (ih hrest)

theorem rel_imp {α β : Type} {R S : α → β → Prop} (h : ∀ a b, R a b → S a b) {x : Option α}
    {y : Option β} (hr : Option.Rel R x y) : Option.Rel S x y := by
  cases hr with
  | none => exact Option.Rel.none
  | some hab => exact Option.Rel.some (h _ _ hab)

theorem exists_of_rel_left {α β : Type} {R : α → β → Prop} {x : Option α} {y : Option β}
    (hr : Option.Rel R x y) {a : α} (ha : a ∈ x) : ∃ b ∈ y, R a b := by
  cases hr with
  | none => cases ha
  | some hab =>
      cases ha
      exact ⟨_, rfl, hab⟩

theorem exists_of_rel_right {α β : Type} {R : α → β → Prop} {x : Option α} {y : Option β}
    (hr : Option.Rel R x y) {b : β} (hb : b ∈ y) : ∃ a ∈ x, R a b := by
  cases hr with
  | none => cases hb
  | some hab =>
      cases hb
      exact ⟨_, rfl, hab⟩

theorem isSome_eq_of_rel {α β : Type} {R : α → β → Prop} {x : Option α} {y : Option β}
    (hr : Option.Rel R x y) : y.isSome = x.isSome := by
  cases hr <;> rfl

namespace Module

/-- The methods of a module, type by type. -/
def methods (mod : Module) : List Method :=
  mod.types.flatMap TypeDef.methods

/-- The fields of the global type, none if there is no such type. -/
def globalFields (mod : Module) : List Field :=
  (mod.global?.map TypeDef.fields).getD []

/-- The token is that of an eligible field of the global type. -/
def IsCandidate (mod : Module) (field : Token) : Prop :=
  ∃ f ∈ mod.globalFields, f.isEligible = true ∧ f.token = field

instance (mod : Module) (field : Token) : Decidable (mod.IsCandidate field) :=
  inferInstanceAs (Decidable (∃ f ∈ mod.globalFields, f.isEligible = true ∧ f.token = field))

theorem globalFields_at {mod : Module} {front back : List TypeDef} {t : TypeDef}
    (hmod : mod.types = front ++ t :: back) (ht : t.isGlobal = true)
    (hfront : ∀ u ∈ front, u.isGlobal = false) : mod.globalFields = t.fields := by
  have hnone : front.find? TypeDef.isGlobal = none := by simpa using hfront
  unfold globalFields global?
  rw [hmod, List.find?_append, hnone, List.find?_cons_of_pos ht]
  rfl

theorem globalFields_eq_nil {mod : Module} (h : ∀ t ∈ mod.types, t.isGlobal = false) :
    mod.globalFields = [] := by
  have hnone : mod.types.find? TypeDef.isGlobal = none := by simpa using h
  unfold globalFields global?
  rw [hnone]
  rfl

/-- If the tokens of the types are distinct, each type is the first one with its token. -/
theorem token_ne_of_nodup {mod : Module} (hnodup : mod.typeTokens.Nodup)
    {front back : List TypeDef} {t : TypeDef} (hmod : mod.types = front ++ t :: back) :
    ∀ u ∈ front, u.token ≠ t.token := by
  intro u hu heq
  unfold typeTokens at hnodup
  rw [hmod, List.map_append, List.map_cons, List.nodup_append] at hnodup
  exact hnodup.2.2 _ (List.mem_map_of_mem hu) _ List.mem_cons_self heq

/-- An update by token reaches the first type with the token. -/
theorem updateType_at {β : Type} {mod : Module} {front back : List TypeDef} {t : TypeDef}
    (hmod : mod.types = front ++ t :: back) (hfront : ∀ u ∈ front, u.token ≠ t.token)
    (update : TypeDef → β × TypeDef) :
    mod.updateType t.token update
      = .ok ((update t).1, { mod with types := front ++ (update t).2 :: back }) := by
  unfold updateType
  rw [hmod, updateFirst?_append (fun u hu => by simpa using hfront u hu) (by simp)]

end Module

namespace Recovery

/-! ## Bodies -/

/-- The walk through the body of a method. -/
def walk (p : Recovery) (method : Token) (b : Body) : Walk.End :=
  Walk.run p.config (p.candidates.getD []) method 0 b.code
    { bindings := p.bindings, locals := b.locals, redirects := p.redirects }

theorem redirectBody_pass (p : Recovery) (method : Token) (b : Body) :
    (p.redirectBody method b).pass
      = { p with
          bindings := (p.walk method b).walk.bindings
          redirects := (p.walk method b).walk.redirects } := by
  unfold redirectBody walk
  simp only
  split <;> rfl

theorem redirectBody_locals (p : Recovery) (method : Token) (b : Body) :
    (p.redirectBody method b).part.locals = (p.walk method b).walk.locals := by
  unfold redirectBody walk
  simp only
  split
  · rfl
  · split_ifs <;> rfl

theorem redirectBody_journal (p : Recovery) (method : Token) (b : Body) :
    (p.redirectBody method b).journal = (p.walk method b).journal := by
  unfold redirectBody walk
  simp only
  split <;> rfl

theorem redirectBody_of_error {p : Recovery} {method : Token} {b : Body} {e : Error}
    (h : (p.walk method b).error = some e) : (p.redirectBody method b).result = .error e := by
  unfold walk at h
  unfold redirectBody
  simp only [h]

theorem redirectBody_of_none {p : Recovery} {method : Token} {b : Body}
    (h : (p.walk method b).error = none) :
    (p.redirectBody method b).result = .ok (p.walk method b).walk.changed ∧
      (p.redirectBody method b).part.code
        = if (p.walk method b).walk.changed && p.config.shrinkCode then
            (p.walk method b).code.shrink
          else (p.walk method b).code := by
  unfold walk at h ⊢
  unfold redirectBody
  simp only [h, true_and]
  split_ifs <;> rfl

/-- If redirecting succeeds, the walk did not break off, and the body does what the walk left. -/
theorem redirectBody_ok_inv {p : Recovery} {method : Token} {b : Body} {changed : Bool}
    (h : (p.redirectBody method b).result = .ok changed) :
    (p.walk method b).error = none ∧
      (p.redirectBody method b).part.code.map Instruction.meaning
        = (p.walk method b).code.map Instruction.meaning := by
  cases herror : (p.walk method b).error with
  | some e =>
      rw [redirectBody_of_error herror] at h
      cases h
  | none =>
      refine ⟨rfl, ?_⟩
      rw [(redirectBody_of_none herror).2]
      split_ifs
      · exact Code.map_meaning_shrink _
      · rfl

/-! ## Methods -/

theorem redirectMethod_pass (p : Recovery) (m : Method) :
    (p.redirectMethod m).pass.config = p.config ∧
      (p.redirectMethod m).pass.candidates = p.candidates := by
  unfold redirectMethod
  split
  · exact ⟨rfl, rfl⟩
  · simp only [redirectBody_pass, and_self]

/-- What redirecting in each of the methods keeps, redirecting in all of them keeps, also when it
stops at an error. -/
theorem redirectMethods_preserves {P : Recovery → Prop} {methods : List Method}
    (hmethod : ∀ (p : Recovery), ∀ m ∈ methods, P p → P (p.redirectMethod m).pass)
    {p : Recovery} (hp : P p) : P (p.redirectMethods methods).pass := by
  induction methods generalizing p with
  | nil => exact hp
  | cons m rest ih =>
      have hfirst := hmethod p m List.mem_cons_self hp
      unfold redirectMethods
      simp only
      split
      · exact hfirst
      · exact ih (fun q n hn => hmethod q n (List.mem_cons_of_mem m hn)) hfirst

theorem redirectMethods_cons_of_error {p : Recovery} {m : Method} {e : Error}
    (h : (p.redirectMethod m).result = .error e) (rest : List Method) :
    p.redirectMethods (m :: rest)
      = { result := .error e, pass := (p.redirectMethod m).pass
          part := (p.redirectMethod m).part :: rest, journal := (p.redirectMethod m).journal } := by
  rw [redirectMethods]
  simp only [h]

theorem redirectMethods_cons_of_ok {p : Recovery} {m : Method} {changed : Bool}
    (h : (p.redirectMethod m).result = .ok changed) (rest : List Method) :
    let others := (p.redirectMethod m).pass.redirectMethods rest
    p.redirectMethods (m :: rest)
      = { result := others.result.map (changed || ·), pass := others.pass
          part := (p.redirectMethod m).part :: others.part
          journal := (p.redirectMethod m).journal ++ others.journal } := by
  intro others
  rw [redirectMethods]
  simp only [h, others]

/-- Redirecting succeeds in several methods if it does in the first one and then in the others. -/
theorem redirectMethods_ok_inv {p : Recovery} {m : Method} {rest : List Method} {changed : Bool}
    (h : (p.redirectMethods (m :: rest)).result = .ok changed) :
    let first := p.redirectMethod m
    let others := first.pass.redirectMethods rest
    (∃ changed, first.result = .ok changed) ∧ (∃ changed, others.result = .ok changed) ∧
      (p.redirectMethods (m :: rest)).pass = others.pass ∧
      (p.redirectMethods (m :: rest)).part = first.part :: others.part ∧
      (p.redirectMethods (m :: rest)).journal = first.journal ++ others.journal := by
  rw [redirectMethods] at h ⊢
  cases hfirst : (p.redirectMethod m).result with
  | error e =>
      simp only [hfirst] at h
      cases h
  | ok changed₁ =>
      simp only [hfirst, and_true] at h ⊢
      cases hrest : ((p.redirectMethod m).pass.redirectMethods rest).result with
      | error e =>
          rw [hrest] at h
          cases h
      | ok changed₂ => exact ⟨⟨changed₁, rfl⟩, changed₂, rfl⟩

/-- Redirecting changes neither the configuration nor the candidates. -/
theorem redirectMethods_pass (p : Recovery) (methods : List Method) :
    (p.redirectMethods methods).pass.config = p.config ∧
      (p.redirectMethods methods).pass.candidates = p.candidates := by
  refine redirectMethods_preserves
    (P := fun q => q.config = p.config ∧ q.candidates = p.candidates) ?_ ⟨rfl, rfl⟩
  rintro q m - ⟨hconfig, hcandidates⟩
  rw [(q.redirectMethod_pass m).1, (q.redirectMethod_pass m).2]
  exact ⟨hconfig, hcandidates⟩

theorem extends_redirectMethod (p : Recovery) (m : Method) :
    Binding.Extends (p.redirectMethod m).pass.bindings p.bindings := by
  unfold redirectMethod
  split
  · exact Binding.Extends.refl p.bindings
  · simp only [redirectBody_pass]
    exact Walk.extends_run _ _ _

/-- Bindings only grow. -/
theorem extends_redirectMethods (p : Recovery) (methods : List Method) :
    Binding.Extends (p.redirectMethods methods).pass.bindings p.bindings := by
  refine redirectMethods_preserves (P := fun q => Binding.Extends q.bindings p.bindings) ?_
    (Binding.Extends.refl p.bindings)
  intro q m _ hq
  exact (q.extends_redirectMethod m).trans hq

theorem find?_redirectMethod_of_ne (p : Recovery) {m : Method} {other : Token}
    (hne : m.token = other → m.body = none) (field : Token) :
    Binding.find? (p.redirectMethod m).pass.bindings field other
      = Binding.find? p.bindings field other := by
  unfold redirectMethod
  split
  · rfl
  · rename_i b hb
    simp only [redirectBody_pass]
    refine Walk.find?_run_of_ne _ _ _ (fun heq => ?_) field
    rw [hne heq] at hb
    cases hb

/-- Only methods with a body get bindings. -/
theorem find?_redirectMethods_of_ne (p : Recovery) {methods : List Method} {other : Token}
    (hne : ∀ m ∈ methods, m.token = other → m.body = none) (field : Token) :
    Binding.find? (p.redirectMethods methods).pass.bindings field other
      = Binding.find? p.bindings field other := by
  refine redirectMethods_preserves
    (P := fun q => Binding.find? q.bindings field other = Binding.find? p.bindings field other)
    ?_ rfl
  intro q m hm hq
  rw [q.find?_redirectMethod_of_ne (hne m hm) field]
  exact hq

/-! ## Calls -/

/-- The candidates that a look at a module comes to: those known already, else those that are
there. -/
def candidatesIn (p : Recovery) (mod : Module) : List Candidate :=
  p.candidates.getD (Candidate.collect mod.globalFields)

theorem locate_pass (p : Recovery) (mod : Module) :
    (p.locate mod).1 = { p with candidates := some (p.candidatesIn mod) } := by
  rcases p with ⟨config, candidates, bindings, redirects⟩
  cases candidates <;> rfl

theorem locate_of_known {p : Recovery} {candidates : List Candidate}
    (h : p.candidates = some candidates) (mod : Module) : p.locate mod = (p, {}) := by
  unfold locate
  rw [h]

theorem locate_events (p : Recovery) (mod : Module) :
    ∀ e ∈ (p.locate mod).2.events, e.kind = .candidateIdentified := by
  unfold locate
  split
  · intro e he
    cases he
  · intro e he
    obtain ⟨f, _, rfl⟩ := List.mem_map.mp he
    rfl

theorem process_missing {p : Recovery} {mod : Module} {token : Token}
    (h : ∀ t ∈ mod.types, t.token ≠ token) :
    (p.process mod token).result = .error (.typeNotFound token) ∧
      (p.process mod token).pass = (p.locate mod).1 ∧ (p.process mod token).mod = mod := by
  have hfirst : ∀ {β : Type} (update : TypeDef → β × TypeDef),
      updateFirst? (fun t => t.token == token) update mod.types = none := fun update =>
    updateFirst?_eq_none fun t ht => by simpa using h t ht
  unfold process Module.updateType
  simp only [hfirst, and_self]

theorem process_at {p : Recovery} {mod : Module} {front back : List TypeDef} {t : TypeDef}
    (hmod : mod.types = front ++ t :: back) (hfront : ∀ u ∈ front, u.token ≠ t.token) :
    let r := (p.locate mod).1.redirectMethods t.methods
    (p.process mod t.token).result = r.result ∧
      (p.process mod t.token).pass = r.pass ∧
      (p.process mod t.token).mod
        = { mod with types := front ++ { t with methods := r.part } :: back } := by
  unfold process
  simp only [Module.updateType_at hmod hfront, and_self]

theorem process_journal_at {p : Recovery} {mod : Module} {front back : List TypeDef} {t : TypeDef}
    (hmod : mod.types = front ++ t :: back) (hfront : ∀ u ∈ front, u.token ≠ t.token) :
    (p.process mod t.token).journal
      = (p.locate mod).2 ++ ((p.locate mod).1.redirectMethods t.methods).journal := by
  unfold process
  simp only [Module.updateType_at hmod hfront]

/-- If types have tokens of their own, calls can go through them from front to back. -/
theorem process_next {p : Recovery} {mod : Module} {front rest : List TypeDef} {t : TypeDef}
    (hmod : mod.types = front ++ t :: rest) (hnodup : mod.typeTokens.Nodup) :
    let r := (p.locate mod).1.redirectMethods t.methods
    (p.process mod t.token).result = r.result ∧ (p.process mod t.token).pass = r.pass ∧
      (p.process mod t.token).journal = (p.locate mod).2 ++ r.journal ∧
      (p.process mod t.token).mod.types = (front ++ [{ t with methods := r.part }]) ++ rest ∧
      (p.process mod t.token).mod.typeTokens.Nodup := by
  have hfront := Module.token_ne_of_nodup hnodup hmod
  obtain ⟨hresult, hpass, hafter⟩ := process_at (p := p) hmod hfront
  refine ⟨hresult, hpass, process_journal_at hmod hfront, ?_, ?_⟩
  · rw [hafter, List.append_assoc, List.singleton_append]
  · unfold Module.typeTokens at hnodup ⊢
    rw [hafter]
    rw [hmod] at hnodup
    simpa using hnodup

/-- All that a call of `process` can do: find no type, or redirect accesses in the methods of the
first type with the token. -/
theorem process_cases (p : Recovery) (mod : Module) (token : Token) :
    ((p.process mod token).pass = (p.locate mod).1 ∧ (p.process mod token).mod = mod) ∨
      ∃ front t back,
        mod.types = front ++ t :: back ∧
        (p.process mod token).pass = ((p.locate mod).1.redirectMethods t.methods).pass ∧
        (p.process mod token).mod
          = { mod with
              types := front
                ++ { t with methods := ((p.locate mod).1.redirectMethods t.methods).part }
                :: back } := by
  rcases forall_or_exists_first (fun t : TypeDef => t.token == token) mod.types with
    h | ⟨front, t, back, hmod, ht, hfront⟩
  · left
    exact (process_missing fun t ht => by simpa using h t ht).2
  · right
    have htoken : t.token = token := by simpa using ht
    subst htoken
    have h := process_at (p := p) hmod fun u hu => by simpa using hfront u hu
    exact ⟨front, t, back, hmod, h.2⟩

theorem process_config (p : Recovery) (mod : Module) (token : Token) :
    (p.process mod token).pass.config = p.config := by
  rcases p.process_cases mod token with ⟨hpass, _⟩ | ⟨_, t, _, _, hpass, _⟩
  · rw [hpass, locate_pass]
  · rw [hpass, (redirectMethods_pass _ _).1, locate_pass]

theorem extends_process (p : Recovery) (mod : Module) (token : Token) :
    Binding.Extends (p.process mod token).pass.bindings p.bindings := by
  rcases p.process_cases mod token with ⟨hpass, _⟩ | ⟨_, t, _, _, hpass, _⟩
  · rw [hpass, locate_pass]
    exact Binding.Extends.refl p.bindings
  · have hext := extends_redirectMethods (p.locate mod).1 t.methods
    rw [hpass]
    rw [locate_pass] at hext ⊢
    exact hext

/-- All that a call of `finalize` can do: nothing, or remove fields of the global type. Without
bindings it does nothing. -/
theorem finalize_cases (p : Recovery) (mod : Module) :
    (p.finalize mod).pass = p ∧ (p.finalize mod).result = .ok () ∧
      ((p.finalize mod).mod = mod ∨
        p.bindings ≠ [] ∧ ∃ front t back fields,
          mod.types = front ++ t :: back ∧
          (p.finalize mod).mod = { mod with types := front ++ { t with fields } :: back }) := by
  unfold finalize
  split_ifs with h
  · rw [Bool.and_eq_true] at h
    unfold Module.updateGlobal?
    rcases forall_or_exists_first TypeDef.isGlobal mod.types with
      hnone | ⟨front, t, back, hmod, ht, hfront⟩
    · rw [updateFirst?_eq_none hnone]
      exact ⟨rfl, rfl, Or.inl rfl⟩
    · rw [hmod, updateFirst?_append hfront ht]
      refine ⟨rfl, rfl, Or.inr ⟨by simpa using h.2, front, t, back, _, rfl, rfl⟩⟩
  · exact ⟨rfl, rfl, Or.inl rfl⟩

/-- `finalize` does nothing if nothing is to be removed or there is no global type. -/
theorem finalize_idle {p : Recovery} {mod : Module}
    (h : p.config.removeFields = false ∨ ∀ t ∈ mod.types, t.isGlobal = false) :
    (p.finalize mod).mod = mod ∧ (p.finalize mod).journal = {} := by
  unfold finalize
  rcases h with hkeep | hnone
  · rw [hkeep, Bool.false_and, if_neg Bool.false_ne_true]
    exact ⟨rfl, rfl⟩
  · unfold Module.updateGlobal?
    rw [updateFirst?_eq_none hnone]
    split_ifs <;> exact ⟨rfl, rfl⟩

/-- What `finalize` does to the global type. A call without bindings is no exception: nothing is
converted then. -/
theorem finalize_at {p : Recovery} {mod : Module} {front back : List TypeDef} {t : TypeDef}
    (hremove : p.config.removeFields = true) (hmod : mod.types = front ++ t :: back)
    (ht : t.isGlobal = true) (hfront : ∀ u ∈ front, u.isGlobal = false) :
    let removed := t.fields.filter fun f => p.isConverted f.token
    let kept := t.fields.filter fun f => !p.isConverted f.token
    (p.finalize mod).mod = { mod with types := front ++ { t with fields := kept } :: back } ∧
      (p.finalize mod).journal.events
        = removed.map removalEvent
          ++ ((p.finalize mod).mod.fieldReferences.filter fun r =>
              removed.any fun f => f.token == r.field).map danglingEvent := by
  intro removed kept
  cases hbindings : p.bindings.isEmpty with
  | true =>
      have hnone : ∀ field, p.isConverted field = false := by
        intro field
        unfold isConverted
        rw [List.isEmpty_iff.mp hbindings]
        rfl
      have hremoved : removed = [] := by simp [removed, hnone]
      have hkept : kept = t.fields := by simp [kept, hnone]
      unfold finalize
      rw [hbindings, Bool.not_true, Bool.and_false, if_neg Bool.false_ne_true, hremoved, hkept]
      refine ⟨?_, by simp⟩
      rw [← hmod]
  | false =>
      have hupdate : mod.updateGlobal? p.removeConverted
          = some (removed, { mod with types := front ++ { t with fields := kept } :: back }) := by
        unfold Module.updateGlobal?
        rw [hmod, updateFirst?_append hfront ht]
        unfold removeConverted
        rw [List.partition_eq_filter_filter]
        rfl
      unfold finalize
      rw [hremove, hbindings, Bool.not_false, Bool.and_true, if_pos rfl, hupdate]
      exact ⟨rfl, rfl⟩

/-- `finalize` is idle, or there is a first global type that it works on. -/
theorem idle_or_exists_global (p : Recovery) (mod : Module) :
    (p.config.removeFields = false ∨ ∀ t ∈ mod.types, t.isGlobal = false) ∨
      p.config.removeFields = true ∧ ∃ front t back, mod.types = front ++ t :: back ∧
        t.isGlobal = true ∧ ∀ u ∈ front, u.isGlobal = false := by
  cases hremove : p.config.removeFields with
  | false => exact Or.inl (Or.inl rfl)
  | true =>
      rcases forall_or_exists_first TypeDef.isGlobal mod.types with hnone | hfirst
      · exact Or.inl (Or.inr hnone)
      · exact Or.inr ⟨rfl, hfirst⟩

theorem finalize_unbound {p : Recovery} (h : p.bindings = []) (mod : Module) :
    (p.finalize mod).mod = mod ∧ (p.finalize mod).journal = {} := by
  unfold finalize
  rw [h, List.isEmpty_nil, Bool.not_true, Bool.and_false, if_neg Bool.false_ne_true]
  exact ⟨rfl, rfl⟩

/-- Of a recovery `finalize` reads the configuration and the bindings, whatever their order. -/
theorem finalize_congr {p q : Recovery} (hconfig : p.config = q.config)
    (hbindings : p.bindings.Perm q.bindings) (mod : Module) :
    (p.finalize mod).mod = (q.finalize mod).mod ∧
      (p.finalize mod).journal = (q.finalize mod).journal := by
  have hconverted : p.removeConverted = q.removeConverted := by
    unfold removeConverted isConverted
    simp only [hbindings.any_eq]
  have hempty : p.bindings.isEmpty = q.bindings.isEmpty := by
    rw [Bool.eq_iff_iff, List.isEmpty_iff, List.isEmpty_iff]
    exact ⟨fun h => (h ▸ hbindings).nil_eq.symm, fun h => (h ▸ hbindings).eq_nil⟩
  unfold finalize
  rw [hconfig, hconverted, hempty]
  split_ifs
  · cases mod.updateGlobal? q.removeConverted <;> exact ⟨rfl, rfl⟩
  · exact ⟨rfl, rfl⟩

theorem globalFields_finalize {p : Recovery} (hremove : p.config.removeFields = true)
    (mod : Module) :
    (p.finalize mod).mod.globalFields
      = mod.globalFields.filter fun f => !p.isConverted f.token := by
  rcases forall_or_exists_first TypeDef.isGlobal mod.types with
    hnone | ⟨front, t, back, hmod, ht, hfront⟩
  · rw [(finalize_idle (Or.inr hnone)).1, Module.globalFields_eq_nil hnone]
    rfl
  · rw [Module.globalFields_at hmod ht hfront, (finalize_at hremove hmod ht hfront).1]
    exact Module.globalFields_at (t := { t with fields := _ }) rfl ht hfront

theorem finalize_methods (p : Recovery) (mod : Module) :
    (p.finalize mod).mod.methods = mod.methods := by
  obtain ⟨_, _, h | ⟨_, front, t, back, fields, hmod, h⟩⟩ := p.finalize_cases mod
  · rw [h]
  · unfold Module.methods
    rw [h, hmod]
    simp only [List.flatMap_append, List.flatMap_cons]

theorem finalize_typeTokens (p : Recovery) (mod : Module) :
    (p.finalize mod).mod.typeTokens = mod.typeTokens := by
  obtain ⟨_, _, h | ⟨_, front, t, back, fields, hmod, h⟩⟩ := p.finalize_cases mod
  · rw [h]
  · unfold Module.typeTokens
    rw [h, hmod, List.map_append, List.map_append, List.map_cons, List.map_cons]

end Recovery

end LocalRecovery
