import LocalRecovery.Proofs.Settled

set_option autoImplicit false

/-! # Types do not depend on each other

Processing a type reads the bindings of its own methods only, and adds to what is there. So a call
does the same on top of whatever older calls have bound for other methods and have counted
(`redirectMethods_onTop`): what it does to a type can be computed from a recovery that has done
nothing yet (`TypeDef.work`).

If types and methods have tokens of their own, the state after any calls of `process`, one for each
of some types, is therefore the sum of the works of these types (`session_after`). The order does
not enter into it, except that events come in the order of the calls.
-/

namespace LocalRecovery

/-! ## Keys -/

namespace Binding

/-- What a binding is found by. -/
def key (b : Binding) : Token × Token :=
  (b.field, b.method)

theorem find?_append (newer older : List Binding) (field method : Token) :
    find? (newer ++ older) field method
      = (find? newer field method).or (find? older field method) := by
  unfold find?
  rw [List.find?_append, Option.map_or]

theorem mem_keys_iff (bindings : List Binding) (field method : Token) :
    (field, method) ∈ bindings.map key ↔ (find? bindings field method).isSome = true := by
  unfold find?
  rw [Option.isSome_map, List.find?_isSome, List.mem_map]
  simp only [key, Prod.mk.injEq, Bool.and_eq_true, beq_iff_eq]

/-- Under distinct keys a lookup finds every binding. -/
theorem find?_eq_some_iff {bindings : List Binding} (hnodup : (bindings.map key).Nodup)
    (field method : Token) (slot : UInt16) :
    find? bindings field method = some slot ↔ ⟨field, method, slot⟩ ∈ bindings := by
  induction bindings with
  | nil => simp [find?]
  | cons b rest ih =>
      rw [List.map_cons, List.nodup_cons] at hnodup
      rw [find?_cons, List.mem_cons]
      by_cases hb : b.field = field ∧ b.method = method
      · obtain ⟨rfl, rfl⟩ := hb
        rw [if_pos ⟨rfl, rfl⟩, Option.some.injEq]
        constructor
        · rintro rfl
          exact Or.inl rfl
        · rintro (h | h)
          · rw [← h]
          · exact absurd (List.mem_map_of_mem h) hnodup.1
      · rw [if_neg hb, ih hnodup.2]
        refine ⟨Or.inr, fun h => h.resolve_left ?_⟩
        rintro rfl
        exact hb ⟨rfl, rfl⟩

theorem find?_perm {first second : List Binding} (hperm : first.Perm second)
    (hnodup : (first.map key).Nodup) (field method : Token) :
    find? first field method = find? second field method := by
  have hnodup' : (second.map key).Nodup := (hperm.map key).nodup_iff.mp hnodup
  refine Option.ext fun slot => ?_
  rw [find?_eq_some_iff hnodup, find?_eq_some_iff hnodup', hperm.mem_iff]

end Binding

/-- A walk binds only what is not bound, so keys stay distinct. -/
theorem Walk.nodup_keys_run {config : RecoveryConfig} {candidates : List Candidate} {method : Token}
    (code : Code) (index : Nat) {w : Walk} (h : (w.bindings.map Binding.key).Nodup) :
    ((run config candidates method index code w).walk.bindings.map Binding.key).Nodup := by
  refine run_preserves (P := fun v => (v.bindings.map Binding.key).Nodup) code ?_ index h
  intro _ i _ v move hs hv
  rcases step_cases hs with ⟨hb, _⟩ | ⟨c, _, hf, _, hb, _⟩
  · rw [hb]
    exact hv
  · rw [hb]
    refine List.nodup_cons.mpr ⟨fun hmem => ?_, hv⟩
    have hsome := (Binding.mem_keys_iff v.bindings c.token method).mp hmem
    rw [hf] at hsome
    cases hsome

namespace Recovery

theorem nodup_keys_redirectMethods {p : Recovery} (h : (p.bindings.map Binding.key).Nodup)
    (methods : List Method) :
    ((p.redirectMethods methods).pass.bindings.map Binding.key).Nodup := by
  refine redirectMethods_preserves (P := fun q => (q.bindings.map Binding.key).Nodup) ?_ h
  intro q m _ hq
  unfold redirectMethod
  split
  · exact hq
  · simp only [redirectBody_pass]
    exact Walk.nodup_keys_run _ _ hq

/-- Each pair of a field and a method is bound once at most. -/
theorem nodup_keys_session {p : Recovery} (h : (p.bindings.map Binding.key).Nodup) (mod : Module)
    (calls : List Call) :
    ((p.session mod calls).pass.bindings.map Binding.key).Nodup := by
  refine session_preserves (P := fun q _ => (q.bindings.map Binding.key).Nodup) ?_ calls h
  intro q current c hq
  have hlocated : ((q.locate current).1.bindings.map Binding.key).Nodup := by
    rw [locate_pass]
    exact hq
  cases c with
  | locate => exact hlocated
  | process type =>
      show ((q.process current type).pass.bindings.map Binding.key).Nodup
      rcases q.process_cases current type with ⟨hpass, _⟩ | ⟨_, t, _, _, hpass, _⟩
      · rw [hpass]
        exact hlocated
      · rw [hpass]
        exact nodup_keys_redirectMethods hlocated t.methods
  | finalize =>
      show ((q.finalize current).pass.bindings.map Binding.key).Nodup
      rw [(q.finalize_cases current).1]
      exact hq

end Recovery

/-! ## On top of older work -/

/-- The walk on top of older bindings and an older count. -/
def Walk.onTop (older : List Binding) (count : Nat) (w : Walk) : Walk :=
  { w with bindings := w.bindings ++ older, redirects := count + w.redirects }

def Walk.Move.onTop (older : List Binding) (count : Nat) (move : Move) : Move :=
  { move with walk := move.walk.onTop older count }

def Walk.End.onTop (older : List Binding) (count : Nat) (stop : End) : End :=
  { stop with walk := stop.walk.onTop older count }

/-- The recovery on top of older bindings and an older count. -/
def Recovery.onTop (older : List Binding) (count : Nat) (p : Recovery) : Recovery :=
  { p with bindings := p.bindings ++ older, redirects := count + p.redirects }

def Redirection.onTop {α : Type} (older : List Binding) (count : Nat) (r : Redirection α) :
    Redirection α :=
  { r with pass := r.pass.onTop older count }

namespace Walk

variable {older : List Binding} {method : Token}

theorem slotFor_onTop (hold : ∀ field, Binding.find? older field method = none) (count : Nat)
    (c : Candidate) (w : Walk) :
    slotFor method c (w.onTop older count)
      = (slotFor method c w).map fun found =>
          (found.1, found.2.1.onTop older count, found.2.2) := by
  have hfind : Binding.find? (w.onTop older count).bindings c.token method
      = Binding.find? w.bindings c.token method := by
    unfold onTop
    rw [Binding.find?_append, hold, Option.or_none]
  unfold slotFor
  rw [hfind]
  cases Binding.find? w.bindings c.token method with
  | some slot => rfl
  | none =>
      rw [show (w.onTop older count).locals = w.locals from rfl]
      cases Body.freshSlot? w.locals <;> rfl

theorem step_onTop (hold : ∀ field, Binding.find? older field method = none) (count : Nat)
    (config : RecoveryConfig) (candidates : List Candidate) (index : Nat) (i : Instruction)
    (w : Walk) :
    step config candidates method index i (w.onTop older count)
      = (step config candidates method index i w).map (Move.onTop older count) := by
  unfold step
  cases i.fieldToken?.bind (Candidate.find? candidates) with
  | none => rfl
  | some c =>
      simp only [redirect]
      rw [slotFor_onTop hold]
      cases slotFor method c w with
      | error e => rfl
      | ok found =>
          simp only [Except.map]
          cases i.opcode.staticAccess? <;> rfl

/-- A walk does the same on top of bindings for other methods. -/
theorem run_onTop (hold : ∀ field, Binding.find? older field method = none) (count : Nat)
    (config : RecoveryConfig) (candidates : List Candidate) (code : Code) (index : Nat) (w : Walk) :
    run config candidates method index code (w.onTop older count)
      = (run config candidates method index code w).onTop older count := by
  induction code generalizing index w with
  | nil => rfl
  | cons i rest ih =>
      unfold run
      rw [step_onTop hold]
      cases step config candidates method index i w with
      | error e => rfl
      | ok move =>
          simp only [Except.map]
          rw [show (Move.onTop older count move).walk = move.walk.onTop older count from rfl, ih]
          rfl

end Walk

namespace Recovery

variable {older : List Binding}

theorem redirectBody_onTop {method : Token}
    (hold : ∀ field, Binding.find? older field method = none) (count : Nat) (p : Recovery)
    (b : Body) :
    (p.onTop older count).redirectBody method b = (p.redirectBody method b).onTop older count := by
  have hwalk : (p.onTop older count).walk method b = (p.walk method b).onTop older count :=
    Walk.run_onTop hold count p.config (p.candidates.getD []) b.code 0
      { bindings := p.bindings, locals := b.locals, redirects := p.redirects }
  unfold walk at hwalk
  unfold redirectBody
  rw [hwalk]
  generalize Walk.run p.config (p.candidates.getD []) method 0 b.code _ = stop
  rcases stop with ⟨code, w, _ | e, journal⟩ <;> rfl

theorem redirectMethod_onTop {m : Method}
    (hold : ∀ field, Binding.find? older field m.token = none) (count : Nat) (p : Recovery) :
    (p.onTop older count).redirectMethod m = (p.redirectMethod m).onTop older count := by
  rcases m with ⟨token, name, _ | b⟩
  · rfl
  · unfold redirectMethod
    simp only [redirectBody_onTop hold]
    rfl

/-- Redirecting does the same on top of bindings for other methods. -/
theorem redirectMethods_onTop {methods : List Method}
    (hold : ∀ m ∈ methods, ∀ field, Binding.find? older field m.token = none) (count : Nat)
    (p : Recovery) :
    (p.onTop older count).redirectMethods methods
      = (p.redirectMethods methods).onTop older count := by
  induction methods generalizing p with
  | nil => rfl
  | cons m rest ih =>
      unfold redirectMethods
      rw [redirectMethod_onTop (hold m List.mem_cons_self)]
      simp only [Redirection.onTop]
      rw [ih fun n hn => hold n (List.mem_cons_of_mem m hn)]
      cases (p.redirectMethod m).result <;> rfl

end Recovery

/-! ## The work of one type -/

/-- The recovery that knows the candidates and has done nothing yet. -/
def Recovery.opening (config : RecoveryConfig) (candidates : List Candidate) : Recovery :=
  { config, candidates := some candidates }

/-- What processing a type comes to, taken by itself. -/
def TypeDef.work (config : RecoveryConfig) (candidates : List Candidate) (t : TypeDef) :
    Redirection (List Method) :=
  (Recovery.opening config candidates).redirectMethods t.methods

section

variable (config : RecoveryConfig) (candidates : List Candidate)

/-- The recovery after the types `done` have been processed. -/
def Recovery.after (done : List TypeDef) : Recovery :=
  (Recovery.opening config candidates).onTop
    (done.flatMap fun t => (t.work config candidates).pass.bindings)
    (done.map fun t => (t.work config candidates).pass.redirects).sum

/-- A type after the types `done` have been processed. -/
def TypeDef.after (done : List TypeDef) (t : TypeDef) : TypeDef :=
  if t ∈ done then { t with methods := (t.work config candidates).part } else t

/-- The module after the types `done` have been processed. -/
def Module.after (done : List TypeDef) (mod : Module) : Module :=
  { mod with types := mod.types.map (TypeDef.after config candidates done) }

theorem TypeDef.token_after (done : List TypeDef) (t : TypeDef) :
    (t.after config candidates done).token = t.token := by
  unfold TypeDef.after
  split_ifs <;> rfl

theorem TypeDef.after_cons_of_ne {t u : TypeDef} (h : u ≠ t) (done : List TypeDef) :
    u.after config candidates (t :: done) = u.after config candidates done := by
  unfold TypeDef.after
  simp only [List.mem_cons, h, false_or]

theorem Recovery.after_nil : Recovery.after config candidates [] = .opening config candidates := rfl

theorem Module.after_nil (mod : Module) : mod.after config candidates [] = mod := by
  unfold Module.after TypeDef.after
  simp

/-- The work of a type binds nothing for the methods of other types. -/
theorem TypeDef.find?_work {t : TypeDef} {method : Token}
    (h : ∀ m ∈ t.methods, m.token ≠ method) (field : Token) :
    Binding.find? (t.work config candidates).pass.bindings field method = none :=
  Recovery.find?_redirectMethods_of_ne _ (fun m hm heq => absurd heq (h m hm)) field

end

/-- Methods of different types have different tokens. -/
theorem Module.method_token_ne {mod : Module} (h : (mod.methods.map Method.token).Nodup)
    {t u : TypeDef} (ht : t ∈ mod.types) (hu : u ∈ mod.types) (hne : t ≠ u) {m n : Method}
    (hm : m ∈ t.methods) (hn : n ∈ u.methods) : m.token ≠ n.token := by
  unfold Module.methods at h
  rw [List.map_flatMap, List.nodup_flatMap] at h
  have : Std.Symm (Function.onFun List.Disjoint fun v : TypeDef => v.methods.map Method.token) :=
    ⟨fun _ _ hdisjoint => hdisjoint.symm⟩
  intro heq
  exact h.2.forall ht hu hne (List.mem_map_of_mem hm) (heq ▸ List.mem_map_of_mem hn)

namespace Recovery

variable (config : RecoveryConfig) (candidates : List Candidate) {mod : Module}

theorem locate_after (done : List TypeDef) (mod : Module) :
    (after config candidates done).locate mod = (after config candidates done, {}) := rfl

/-- What has been done binds nothing for the methods of a type that is still to come. -/
theorem find?_after (hmethods : (mod.methods.map Method.token).Nodup) {done : List TypeDef}
    (hdone : ∀ u ∈ done, u ∈ mod.types) {t : TypeDef} (ht : t ∈ mod.types) (hnew : t ∉ done)
    {m : Method} (hm : m ∈ t.methods) (field : Token) :
    Binding.find? (done.flatMap fun u => (u.work config candidates).pass.bindings) field m.token
      = none := by
  induction done with
  | nil => rfl
  | cons u rest ih =>
      have hne : t ≠ u := fun heq => hnew (heq ▸ List.mem_cons_self)
      have hu : u ∈ mod.types := hdone u List.mem_cons_self
      rw [List.flatMap_cons, Binding.find?_append, TypeDef.find?_work, Option.none_or]
      · exact ih (fun v hv => hdone v (List.mem_cons_of_mem u hv))
          fun hmem => hnew (List.mem_cons_of_mem u hmem)
      · exact fun n hn => (Module.method_token_ne hmethods ht hu hne hm hn).symm

/-- Processing one more type puts its work on top. -/
theorem after_cons (done : List TypeDef) (t : TypeDef) :
    after config candidates (t :: done)
      = (t.work config candidates).pass.onTop
          (done.flatMap fun u => (u.work config candidates).pass.bindings)
          (done.map fun u => (u.work config candidates).pass.redirects).sum := by
  obtain ⟨hconfig, hcandidates⟩ := (opening config candidates).redirectMethods_pass t.methods
  unfold after onTop
  rw [show (t.work config candidates).pass.config = _ from hconfig,
    show (t.work config candidates).pass.candidates = _ from hcandidates, List.flatMap_cons,
    List.map_cons, List.sum_cons, Nat.add_comm (t.work config candidates).pass.redirects]
  rfl

/-- A call for a type that has not been processed yet adds the work of this type. -/
theorem process_after (htypes : mod.typeTokens.Nodup)
    (hmethods : (mod.methods.map Method.token).Nodup) {done : List TypeDef}
    (hdone : ∀ u ∈ done, u ∈ mod.types) {t : TypeDef} (ht : t ∈ mod.types) (hnew : t ∉ done) :
    let s := (after config candidates done).process (mod.after config candidates done) t.token
    s.result = (t.work config candidates).result ∧
      s.pass = after config candidates (t :: done) ∧
      s.mod = mod.after config candidates (t :: done) ∧
      s.journal.events = (t.work config candidates).journal.events := by
  obtain ⟨front, back, hmod⟩ := List.append_of_mem ht
  have hfront := Module.token_ne_of_nodup htypes hmod
  have hrest : ∀ u ∈ front ++ back, u ≠ t := by
    intro u hu heq
    have hnodup : (front ++ t :: back).Nodup := hmod ▸ htypes.of_map TypeDef.token
    rw [List.nodup_middle, List.nodup_cons] at hnodup
    exact hnodup.1 (heq ▸ hu)
  have hwork : (after config candidates done).redirectMethods t.methods
      = (t.work config candidates).onTop _ _ :=
    redirectMethods_onTop (fun m hm => find?_after config candidates hmethods hdone ht hnew hm) _ _
  have hsplit : (mod.after config candidates done).types
      = front.map (TypeDef.after config candidates done)
        ++ t :: back.map (TypeDef.after config candidates done) := by
    have hkept : t.after config candidates done = t := if_neg hnew
    unfold Module.after
    rw [hmod, List.map_append, List.map_cons, hkept]
  have hfirst : ∀ v ∈ front.map (TypeDef.after config candidates done), v.token ≠ t.token := by
    intro v hv
    obtain ⟨u, hu, rfl⟩ := List.mem_map.mp hv
    rw [TypeDef.token_after]
    exact hfront u hu
  obtain ⟨hresult, hpass, hafter⟩ :=
    process_at (p := after config candidates done) hsplit hfirst
  have hjournal := process_journal_at (p := after config candidates done) hsplit hfirst
  rw [locate_after, hwork] at hresult hpass hafter hjournal
  refine ⟨hresult, hpass.trans (after_cons config candidates done t).symm, hafter.trans ?_, ?_⟩
  · -- beside `t` nothing changes
    have hsame : ∀ types ⊆ front ++ back, types.map (TypeDef.after config candidates (t :: done))
        = types.map (TypeDef.after config candidates done) := fun types hsub =>
      List.map_congr_left fun u hu =>
        TypeDef.after_cons_of_ne config candidates (hrest u (hsub hu)) done
    have hworked : t.after config candidates (t :: done)
        = { t with methods := (t.work config candidates).part } := if_pos List.mem_cons_self
    show Module.mk _ _ = Module.mk mod.name (mod.types.map _)
    rw [hmod, List.map_append, List.map_cons, hworked,
      hsame front (List.subset_append_left front back),
      hsame back (List.subset_append_right front back)]
    rfl
  · rw [hjournal]
    rfl

/-- **The sum of the works.** After calls for some types, in any order and whatever they return,
each call has the result and the events of the work of its type, and recovery and module are what
the works add up to. -/
theorem session_after (htypes : mod.typeTokens.Nodup)
    (hmethods : (mod.methods.map Method.token).Nodup) (order done : List TypeDef)
    (hmem : ∀ t ∈ order ++ done, t ∈ mod.types) (hnodup : (order ++ done).Nodup) :
    let s := (after config candidates done).session (mod.after config candidates done)
      ((order.map TypeDef.token).map .process)
    s.results = order.map (fun t => (t.work config candidates).result) ∧
      s.pass = after config candidates (order.reverse ++ done) ∧
      s.mod = mod.after config candidates (order.reverse ++ done) ∧
      s.journal.events = order.flatMap fun t => (t.work config candidates).journal.events := by
  induction order generalizing done with
  | nil => exact ⟨rfl, rfl, rfl, rfl⟩
  | cons t rest ih =>
      have hnew : t ∉ done := fun h =>
        (List.nodup_cons.mp hnodup).1 (List.mem_append_right rest h)
      obtain ⟨hresult, hpass, hmod, hevents⟩ := process_after config candidates htypes hmethods
        (fun u hu => hmem u (List.mem_append_right _ hu)) (hmem t List.mem_cons_self) hnew
      -- `t` moves from the types to come to those that are done
      have hperm : (rest ++ t :: done).Perm (t :: rest ++ done) := List.perm_middle
      obtain ⟨hresults, hlast, hmods, hlater⟩ :=
        ih (t :: done) (fun u hu => hmem u (hperm.mem_iff.mp hu)) (hperm.nodup_iff.mpr hnodup)
      simp only [List.map_cons, session, call, hpass, hmod, List.reverse_cons, List.append_assoc,
        List.singleton_append, List.flatMap_cons, Journal.events_append]
      exact ⟨by rw [hresult, hresults], hlast, hmods, by rw [hevents, hlater]⟩

/-! ## Orders -/

/-- Apart from what it records about candidates, a call goes as if they had been known. -/
theorem process_locate (p : Recovery) (mod : Module) (token : Token) :
    let s := p.process mod token
    let known := (p.locate mod).1.process mod token
    s.result = known.result ∧ s.pass = known.pass ∧ s.mod = known.mod ∧
      s.journal.events = (p.locate mod).2.events ++ known.journal.events := by
  unfold process
  simp only [locate_again]
  cases mod.updateType token _ with
  | error e => exact ⟨rfl, rfl, rfl, (List.append_nil _).symm⟩
  | ok found => exact ⟨rfl, rfl, rfl, rfl⟩

/-- So does a session, since its first call finds the candidates. -/
theorem session_locate {tokens : List Token} (h : tokens ≠ []) (p : Recovery) (mod : Module) :
    let s := p.session mod (tokens.map .process)
    let known := (p.locate mod).1.session mod (tokens.map .process)
    s.results = known.results ∧ s.pass = known.pass ∧ s.mod = known.mod ∧
      s.journal.events = (p.locate mod).2.events ++ known.journal.events := by
  cases tokens with
  | nil => exact absurd rfl h
  | cons token rest =>
      obtain ⟨hresult, hpass, hmod, hevents⟩ := p.process_locate mod token
      simp only [List.map_cons, session, call, hresult, hpass, hmod, Journal.events_append, hevents,
        List.append_assoc, and_self]

theorem exists_order {tokens : List Token} (h : tokens.Perm mod.typeTokens) :
    ∃ order : List TypeDef, order.map TypeDef.token = tokens ∧ order.Perm mod.types := by
  have htokens : List.Forall₂ (fun token (t : TypeDef) => token = t.token) mod.typeTokens
      mod.types := by
    unfold Module.typeTokens
    rw [List.forall₂_map_left_iff]
    exact List.forall₂_same.mpr fun t _ => rfl
  obtain ⟨order, horder, hperm⟩ := List.perm_comp_forall₂ h htokens
  have hsame := List.forall₂_map_right_iff.mpr horder
  rw [List.forall₂_eq_eq_eq] at hsame
  exact ⟨order, hsame.symm, hperm⟩

/-- The sum of the works of all types, for a new recovery. -/
theorem session_all (htypes : mod.typeTokens.Nodup)
    (hmethods : (mod.methods.map Method.token).Nodup) {order : List TypeDef}
    (horder : order.Perm mod.types) (hne : order ≠ []) :
    let candidates := Candidate.collect mod.globalFields
    let s := session { config } mod ((order.map TypeDef.token).map .process)
    s.results = order.map (fun t => (t.work config candidates).result) ∧
      s.pass = after config candidates order.reverse ∧
      s.mod = mod.after config candidates order.reverse ∧
      s.journal.events = (locate { config } mod).2.events
        ++ order.flatMap fun t => (t.work config candidates).journal.events := by
  intro candidates s
  have htokens : order.map TypeDef.token ≠ [] := fun h => hne (List.map_eq_nil_iff.mp h)
  have hnodup : order.Nodup := horder.nodup_iff.mpr (htypes.of_map TypeDef.token)
  obtain ⟨hresults, hpass, hmod, hevents⟩ := session_locate htokens { config } mod
  have hknown := session_after config candidates htypes hmethods order []
    (fun t ht => horder.mem_iff.mp (List.append_nil order ▸ ht))
    ((List.append_nil order).symm ▸ hnodup)
  rw [Module.after_nil, List.append_nil] at hknown
  obtain ⟨hresults', hpass', hmod', hevents'⟩ := hknown
  exact ⟨hresults.trans hresults', hpass.trans hpass', hmod.trans hmod',
    hevents.trans (congrArg _ hevents')⟩

/-- Two orders of the types lead to the same module and to the same bindings and events, up to their
order. -/
theorem session_perm (htypes : mod.typeTokens.Nodup)
    (hmethods : (mod.methods.map Method.token).Nodup) {first second : List Token}
    (hfirst : first.Perm mod.typeTokens) (hsecond : second.Perm mod.typeTokens) :
    let s := session { config } mod (first.map .process)
    let s' := session { config } mod (second.map .process)
    s.results.Perm s'.results ∧ s.mod = s'.mod ∧ s.pass.bindings.Perm s'.pass.bindings ∧
      s.pass.redirects = s'.pass.redirects ∧ s.journal.events.Perm s'.journal.events := by
  obtain ⟨order, rfl, horder⟩ := exists_order hfirst
  obtain ⟨order', rfl, horder'⟩ := exists_order hsecond
  have hperm : order.Perm order' := horder.trans horder'.symm
  rcases eq_or_ne order [] with rfl | hne
  · -- a module without types
    rw [← hperm.nil_eq]
    exact ⟨.refl _, rfl, .refl _, rfl, .refl _⟩
  · have hne' : order' ≠ [] := fun h => hne (h ▸ hperm).eq_nil
    have hreverse : order.reverse.Perm order'.reverse :=
      (List.reverse_perm order).trans (hperm.trans (List.reverse_perm order').symm)
    obtain ⟨hresults, hpass, hmod, hevents⟩ := session_all config htypes hmethods horder hne
    obtain ⟨hresults', hpass', hmod', hevents'⟩ := session_all config htypes hmethods horder' hne'
    intro s s'
    rw [show s.results = _ from hresults, show s'.results = _ from hresults',
      show s.pass = _ from hpass, show s'.pass = _ from hpass', show s.mod = _ from hmod,
      show s'.mod = _ from hmod', show s.journal.events = _ from hevents,
      show s'.journal.events = _ from hevents']
    refine ⟨hperm.map _, ?_, hreverse.flatMap_right _, ?_, (hperm.flatMap_right _).append_left _⟩
    · -- a type asks only whether it is among those that are done
      unfold Module.after TypeDef.after
      simp only [hreverse.mem_iff]
    · exact congrArg (· + 0) (hreverse.map _).sum_eq

/-- **The order of the types does not matter.** Let types and methods have tokens of their own, and
let two new recoveries with one configuration process the types of the module in two orders and then
finalize. Either both succeed on every type or neither does. They end with the same module, the same
bindings, the same count and the same summaries, and they have recorded the same events, up to their
order. -/
theorem session_order_independent (mod : Module) (htypes : mod.typeTokens.Nodup)
    (hmethods : (mod.methods.map Method.token).Nodup) (first second : List Token)
    (hfirst : first.Perm mod.typeTokens) (hsecond : second.Perm mod.typeTokens) :
    let s := session { config } mod (first.map .process ++ [.finalize])
    let s' := session { config } mod (second.map .process ++ [.finalize])
    (s.Succeeds ↔ s'.Succeeds) ∧ s.mod = s'.mod ∧
      (∀ field method, s.pass.binding? field method = s'.pass.binding? field method) ∧
      s.pass.redirects = s'.pass.redirects ∧ s.pass.summaries = s'.pass.summaries ∧
      s.journal.events.Perm s'.journal.events := by
  intro s s'
  obtain ⟨hresults, hmod, hbindings, hredirects, hevents⟩ :=
    session_perm config htypes hmethods hfirst hsecond
  obtain ⟨hended, hpass, hfinal, hlog⟩ := session_finalize { config } mod (first.map .process)
  obtain ⟨hended', hpass', hfinal', hlog'⟩ := session_finalize { config } mod (second.map .process)
  have hconfig := (session_config { config } mod (first.map .process)).trans
    (session_config { config } mod (second.map .process)).symm
  obtain ⟨hsame, hjournal⟩ := finalize_congr hconfig hbindings
    (session { config } mod (second.map .process)).mod
  have hcount : s.pass.redirects = s'.pass.redirects := by
    rw [show s.pass = _ from hpass, show s'.pass = _ from hpass']
    exact hredirects
  refine ⟨?_, ?_, ?_, hcount, ?_, ?_⟩
  · unfold Session.Succeeds
    rw [show s.results = _ from hended, show s'.results = _ from hended']
    have hperm := hresults.append_right [.ok false]
    exact ⟨fun h r hr => h r (hperm.mem_iff.mpr hr), fun h r hr => h r (hperm.mem_iff.mp hr)⟩
  · rw [show s.mod = _ from hfinal, show s'.mod = _ from hfinal', hmod]
    exact hsame
  · intro field method
    unfold binding?
    rw [show s.pass = _ from hpass, show s'.pass = _ from hpass']
    have hkeys := nodup_keys_session (p := { config }) List.nodup_nil mod (first.map .process)
    exact Binding.find?_perm hbindings hkeys field method
  · unfold summaries
    rw [hcount]
  · rw [show s.journal.events = _ from hlog, show s'.journal.events = _ from hlog', hmod, hjournal]
    exact hevents.append_right _

theorem session_order_independent_hoistedPair :
    let s := session {} hoistedPair
      ([⟨0x02000001⟩, ⟨0x02000002⟩].map .process ++ [.finalize])
    let s' := session {} hoistedPair
      ([⟨0x02000002⟩, ⟨0x02000001⟩].map .process ++ [.finalize])
    s.Succeeds ∧ s'.Succeeds ∧ s.pass.redirects = 5 ∧ s'.pass.redirects = 5 ∧
      s.mod ≠ hoistedPair ∧ s.mod = s'.mod ∧ s.pass.summaries = s'.pass.summaries ∧
      s.journal.events ≠ s'.journal.events ∧ s.journal.events.Perm s'.journal.events := by
  intro s s'
  have hok : s.Succeeds := by decide +kernel
  have hcount : s.pass.redirects = 5 := by decide +kernel
  obtain ⟨hboth, hmod, _, hredirects, hsummaries, hevents⟩ :=
    session_order_independent {} hoistedPair (by decide) (by decide)
      [⟨0x02000001⟩, ⟨0x02000002⟩] [⟨0x02000002⟩, ⟨0x02000001⟩] (by decide) (by decide)
  exact ⟨hok, hboth.mp hok, hcount, hredirects ▸ hcount, by decide +kernel, hmod, hsummaries,
    by decide +kernel, hevents⟩

end Recovery

end LocalRecovery
