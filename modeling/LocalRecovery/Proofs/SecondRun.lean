import LocalRecovery.Proofs.Frame
import LocalRecovery.Proofs.Removal

set_option autoImplicit false

/-! # A second run

A full run that succeeds leaves nothing to do for another one. Tokens may be shared: what is said
about a token is said about the first type that has it, since no call reaches any other.

The type that a successful call reaches is settled afterwards, and it stays so in later calls
(`settledAt_session`). So the same recovery finds nothing to redirect: the accesses that it left in
place have their variables. A new recovery knows only the fields that are still there; these were
not converted, so no settled type accesses them (`settledAt_afresh`).
-/

namespace LocalRecovery

/-! ## The first type with a token -/

namespace Module

variable {mod : Module} {front back : List TypeDef} {t : TypeDef} {token : Token}

theorem type_eq_ok_iff :
    mod.type token = .ok t ↔
      ∃ front back, mod.types = front ++ t :: back ∧ t.token = token ∧
        ∀ u ∈ front, u.token ≠ token := by
  have hfind : mod.type token = .ok t ↔ mod.types.find? (fun u => u.token == token) = some t := by
    unfold type
    cases mod.types.find? (fun u => u.token == token) <;> simp
  rw [hfind, List.find?_eq_some_iff_append]
  simp only [beq_iff_eq, Bool.not_eq_true', beq_eq_false_iff_ne]
  exact ⟨fun ⟨ht, front, back, hmod, hfront⟩ => ⟨front, back, hmod, ht, hfront⟩,
    fun ⟨front, back, hmod, ht, hfront⟩ => ⟨ht, front, back, hmod, hfront⟩⟩

/-- Where one type takes the place of another with the same token, a lookup gives the new type or
what it gave before. -/
theorem type_replace (t' : TypeDef) {u : TypeDef} (hmod : mod.types = front ++ t :: back)
    (htoken : t'.token = t.token) (hu : mod.type token = .ok u) :
    (u = t ∧ type { mod with types := front ++ t' :: back } token = .ok t') ∨
      type { mod with types := front ++ t' :: back } token = .ok u := by
  unfold type at hu ⊢
  simp only [hmod, List.find?_append, List.find?_cons, htoken] at hu ⊢
  cases hfront : front.find? (fun u => u.token == token) with
  | some v =>
      right
      simpa [hfront] using hu
  | none =>
      simp only [hfront, Option.none_or] at hu ⊢
      cases ht : t.token == token with
      | true =>
          left
          simp only [ht] at hu ⊢
          exact ⟨(Except.ok.inj hu).symm, trivial⟩
      | false =>
          right
          simpa [ht] using hu

end Module

/-- The type that a call for the token reaches is settled. -/
def Module.SettledAt (candidates : List Candidate) (bindings : List Binding) (mod : Module)
    (token : Token) : Prop :=
  ∃ t, mod.type token = .ok t ∧ t.Settled candidates bindings

/-- The number of accesses to candidates in the type that a call for the token reaches. -/
def Module.accessCountAt (candidates : List Candidate) (mod : Module) (token : Token) : Nat :=
  match mod.type token with
  | .ok t => t.accessCount candidates
  | .error _ => 0

namespace Recovery

/-! ## Settling -/

variable {p : Recovery} {mod : Module} {token other : Token}

/-- The type that a successful call has worked on is settled. -/
theorem settled_of_ok {changed : Bool} (hok : (p.process mod token).result = .ok changed) :
    ∃ front t t' back, mod.types = front ++ t :: back ∧ (∀ u ∈ front, u.token ≠ token) ∧
      t.token = token ∧ t'.token = token ∧
      t'.Settled (p.candidatesIn mod) (p.process mod token).pass.bindings ∧
      (p.process mod token).mod = { mod with types := front ++ t' :: back } := by
  rcases forall_or_exists_first (fun t : TypeDef => t.token == token) mod.types with
    hnone | ⟨front, t, back, hmod, ht, hfront⟩
  · rw [(process_missing fun t ht => by simpa using hnone t ht).1] at hok
    cases hok
  · obtain rfl : t.token = token := by simpa using ht
    have hfirst : ∀ u ∈ front, u.token ≠ t.token := fun u hu => by simpa using hfront u hu
    obtain ⟨hresult, hpass, hafter⟩ := process_at (p := p) hmod hfirst
    have hsettled := settled_redirectMethods (hresult.symm.trans hok)
    refine ⟨front, t, { t with methods := ((p.locate mod).1.redirectMethods t.methods).part }, back,
      hmod, hfirst, rfl, rfl, ?_, hafter⟩
    rw [hpass]
    rw [locate_pass] at hsettled ⊢
    exact hsettled

/-- A successful call settles the type that it works on, and what is settled stays so. -/
theorem settledAt_process {changed : Bool} (hok : (p.process mod token).result = .ok changed)
    (h : other = token ∨ mod.SettledAt (p.candidatesIn mod) p.bindings other) :
    (p.process mod token).mod.SettledAt (p.candidatesIn mod) (p.process mod token).pass.bindings
      other := by
  obtain ⟨front, t, t', back, hmod, hfront, ht, ht', hsettled', hafter⟩ := settled_of_ok hok
  rw [hafter]
  rcases h with rfl | ⟨u, hu, hsettled⟩
  · exact ⟨t', Module.type_eq_ok_iff.mpr ⟨front, back, rfl, ht', hfront⟩, hsettled'⟩
  · rcases Module.type_replace t' hmod (ht'.trans ht.symm) hu with ⟨_, hnew⟩ | hsame
    · exact ⟨t', hnew, hsettled'⟩
    · exact ⟨u, hsame, hsettled.mono (p.extends_process mod token)⟩

/-- After a session of successful calls every type that a call has worked on is settled. -/
theorem settledAt_session {tokens : List Token}
    (hok : (p.session mod (tokens.map .process)).Succeeds)
    (h : token ∈ tokens ∨ mod.SettledAt (p.candidatesIn mod) p.bindings token) :
    (p.session mod (tokens.map .process)).mod.SettledAt (p.candidatesIn mod)
      (p.session mod (tokens.map .process)).pass.bindings token := by
  induction tokens generalizing p mod with
  | nil => exact h.resolve_left List.not_mem_nil
  | cons first rest ih =>
      obtain ⟨changed, hfirst⟩ := hok _ List.mem_cons_self
      have hrest : ((p.process mod first).pass.session (p.process mod first).mod
          (rest.map .process)).Succeeds := fun r hr => hok r (List.mem_cons_of_mem _ hr)
      have hlater := ih hrest
      rw [candidatesIn_process] at hlater
      refine hlater ?_
      rw [List.mem_cons, or_right_comm] at h
      exact h.symm.imp_right (settledAt_process hfirst)

theorem settledAt_finalize {candidates : List Candidate} {bindings : List Binding}
    (h : mod.SettledAt candidates bindings token) :
    (p.finalize mod).mod.SettledAt candidates bindings token := by
  obtain ⟨u, hu, hsettled⟩ := h
  obtain ⟨_, _, hmod | ⟨_, front, t, back, fields, htypes, hmod⟩⟩ := p.finalize_cases mod
  · rw [hmod]
    exact ⟨u, hu, hsettled⟩
  · rw [hmod]
    rcases Module.type_replace { t with fields } htypes rfl hu with ⟨rfl, hnew⟩ | hsame
    · exact ⟨_, hnew, hsettled⟩
    · exact ⟨u, hsame, hsettled⟩

/-! ## Settled modules -/

/-- A session that processes settled types counts their accesses and does nothing else. It may be
the one that finds the candidates. -/
theorem session_of_settled {tokens : List Token}
    (h : ∀ token ∈ tokens, mod.SettledAt (p.candidatesIn mod) p.bindings token) :
    let s := p.session mod (tokens.map .process)
    (∀ r ∈ s.results, r = .ok false) ∧ s.mod = mod ∧ s.pass.config = p.config ∧
      s.pass.bindings = p.bindings ∧
      s.pass.redirects
        = p.redirects + (tokens.map (mod.accessCountAt (p.candidatesIn mod))).sum ∧
      s.journal.events = (if tokens = [] then [] else (p.locate mod).2.events) := by
  induction tokens generalizing p with
  | nil => exact ⟨fun _ hr => absurd hr List.not_mem_nil, rfl, rfl, rfl, rfl, rfl⟩
  | cons token rest ih =>
      obtain ⟨t, ht, hsettled⟩ := h token List.mem_cons_self
      have hcount : mod.accessCountAt (p.candidatesIn mod) token
          = t.accessCount (p.candidatesIn mod) := by
        unfold Module.accessCountAt
        rw [ht]
      obtain ⟨front, back, hmod, rfl, hfront⟩ := Module.type_eq_ok_iff.mp ht
      obtain ⟨hresult, hafter, hpass, hevents⟩ := process_of_settled hmod hfront hsettled
      -- the later calls find the same module, the same bindings and the candidates
      have hcandidates := p.candidatesIn_process mod t.token mod
      have hbindings : (p.process mod t.token).pass.bindings = p.bindings := by
        rw [hpass]
      have hfound : ((p.process mod t.token).pass.locate mod).2.events = [] := by
        rw [hpass]
        rfl
      obtain ⟨hresults, hmod', hconfig, hbindings', hredirects, hevents'⟩ :=
        ih (p := (p.process mod t.token).pass) fun other hother => by
          rw [hcandidates, hbindings]
          exact h other (List.mem_cons_of_mem _ hother)
      rw [hfound, ite_self] at hevents'
      simp only [List.map_cons, session, call, hafter]
      refine ⟨?_, hmod', hconfig.trans (p.process_config mod t.token), hbindings'.trans hbindings,
        ?_, ?_⟩
      · intro r hr
        rcases List.mem_cons.mp hr with rfl | hr
        · exact hresult
        · exact hresults r hr
      · rw [hredirects, hcandidates, hpass, List.sum_cons, hcount, Nat.add_assoc]
      · rw [Journal.events_append, hevents, hevents', List.append_nil,
          if_neg (List.cons_ne_nil _ _)]

/-- A full run over settled types, if there is nothing to remove either. -/
theorem fullRun_of_settled
    (h : ∀ token ∈ mod.typeTokens, mod.SettledAt (p.candidatesIn mod) p.bindings token)
    (hremoved : (p.finalize mod).mod = mod ∧ (p.finalize mod).journal.events = []) :
    let s := p.session mod (fullRun mod)
    (∀ r ∈ s.results, r = .ok false) ∧ s.mod = mod ∧
      s.pass.redirects
        = p.redirects + (mod.typeTokens.map (mod.accessCountAt (p.candidatesIn mod))).sum ∧
      s.journal.events = if mod.typeTokens = [] then [] else (p.locate mod).2.events := by
  intro s
  obtain ⟨hresults, hpass, hmod, hevents⟩ :=
    p.session_finalize mod (mod.typeTokens.map .process)
  obtain ⟨hfalse, hmod₀, hconfig, hbindings, hredirects, hevents₀⟩ := session_of_settled h
  obtain ⟨hfinal, hjournal⟩ :=
    finalize_congr hconfig (hbindings ▸ List.Perm.refl p.bindings) mod
  rw [hmod₀] at hmod hevents
  refine ⟨?_, ?_, ?_, ?_⟩
  · intro r hr
    rcases List.mem_append.mp (hresults ▸ hr) with hr | hr
    · exact hfalse r hr
    · exact List.mem_singleton.mp hr
  · exact hmod.trans (hfinal.trans hremoved.1)
  · exact (congrArg Recovery.redirects hpass).trans hredirects
  · refine hevents.trans ?_
    rw [hevents₀, hjournal, hremoved.2, List.append_nil]

/-! ## The two recoveries of the second run -/

theorem globalFields_session (tokens : List Token) :
    (p.session mod (tokens.map .process)).mod.globalFields = mod.globalFields := by
  induction tokens generalizing p mod with
  | nil => rfl
  | cons token rest ih => exact ih.trans (p.globalFields_process mod token)

/-- Once the converted fields are gone, what is settled accesses none of the candidates that
remain. -/
theorem settledAt_afresh {original : Module} (hremove : p.config.removeFields = true)
    (hfields : mod.globalFields = original.globalFields)
    (h : mod.SettledAt (Candidate.collect original.globalFields) p.bindings token) :
    let after := (p.finalize mod).mod
    after.SettledAt (Candidate.collect after.globalFields) [] token ∧
      after.accessCountAt (Candidate.collect after.globalFields) token = 0 := by
  intro after
  obtain ⟨t, ht, hsettled⟩ := settledAt_finalize (p := p) h
  have hnone : ∀ m ∈ t.methods, ∀ b ∈ m.body, ∀ i ∈ b.code,
      i.candidate? (Candidate.collect after.globalFields) = none := by
    intro m hm b hb i hi
    by_contra hsome
    obtain ⟨c, hc⟩ := Option.ne_none_iff_exists'.mp hsome
    obtain ⟨hfield, hfind⟩ := Instruction.find?_of_candidate? hc
    -- the field that `i` accesses is one that was kept, and kept fields are not converted
    obtain ⟨f, hf, heligible, htoken⟩ :=
      (Candidate.isSome_find?_collect_iff _ _).mp (Option.isSome_of_eq_some hfind)
    rw [show after.globalFields = _ from globalFields_finalize hremove mod, List.mem_filter,
      hfields] at hf
    -- so it was a candidate before, and settled code that accesses it has converted it
    obtain ⟨d, hd⟩ := Option.isSome_iff_exists.mp
      ((Candidate.isSome_find?_collect_iff _ _).mpr ⟨f, hf.1, heligible, htoken⟩)
    have hcandidate : i.candidate? (Candidate.collect original.globalFields) = some d := by
      unfold Instruction.candidate?
      rw [hfield]
      exact hd
    obtain ⟨_, hbound⟩ := hsettled m hm b hb i hi d hcandidate
    have hconverted := (p.isConverted_iff f.token).mpr ⟨m.token, by
      rw [htoken, ← Candidate.token_of_find? hd]
      exact hbound⟩
    rw [hconverted] at hf
    exact absurd hf.2 (by simp)
  refine ⟨⟨t, ht, fun m hm b hb => Code.settled_of_none (hnone m hm b hb) [] m.token⟩, ?_⟩
  unfold Module.accessCountAt
  rw [ht]
  exact TypeDef.accessCount_eq_zero hnone

/-- The same recovery, once all types are settled. -/
theorem again_of_settled {candidates : List Candidate}
    (hlocated : mod.typeTokens ≠ [] → p.candidates = some candidates)
    (h : ∀ token ∈ mod.typeTokens, mod.SettledAt candidates p.bindings token) :
    let after := (p.finalize mod).mod
    let again := p.session after (fullRun after)
    (∀ r ∈ again.results, r = .ok false) ∧ again.mod = after ∧ again.journal.events = [] := by
  intro after again
  have htokens : after.typeTokens = mod.typeTokens := p.finalize_typeTokens mod
  have hsettled : ∀ token ∈ after.typeTokens,
      after.SettledAt (p.candidatesIn after) p.bindings token := by
    intro token htoken
    rw [htokens] at htoken
    unfold candidatesIn
    rw [hlocated (List.ne_nil_of_mem htoken)]
    exact settledAt_finalize (h token htoken)
  obtain ⟨hresults, hmod, _, hevents⟩ := fullRun_of_settled hsettled (p.finalize_finalize mod)
  refine ⟨hresults, hmod, hevents.trans ?_⟩
  split_ifs with hempty
  · rfl
  · -- the candidates are known, so none is recorded
    unfold locate
    rw [hlocated (htokens ▸ hempty)]

/-- A new recovery, once all types are settled and the converted fields are gone. -/
theorem afresh_of_settled {original : Module} (hremove : p.config.removeFields = true)
    (hfields : mod.globalFields = original.globalFields)
    (h : ∀ token ∈ mod.typeTokens,
      mod.SettledAt (Candidate.collect original.globalFields) p.bindings token)
    (config : RecoveryConfig) :
    let after := (p.finalize mod).mod
    let afresh := session { config } after (fullRun after)
    (∀ r ∈ afresh.results, r = .ok false) ∧ afresh.mod = after ∧
      (∀ e ∈ afresh.journal.events, e.kind = .candidateIdentified) ∧
      afresh.pass.redirects = 0 := by
  intro after afresh
  have hsettled : ∀ token ∈ after.typeTokens,
      after.SettledAt (Candidate.collect after.globalFields) [] token ∧
        after.accessCountAt (Candidate.collect after.globalFields) token = 0 := by
    intro token htoken
    rw [show after.typeTokens = _ from p.finalize_typeTokens mod] at htoken
    exact settledAt_afresh hremove hfields (h token htoken)
  obtain ⟨hidle, hjournal⟩ := finalize_unbound (p := { config }) rfl after
  obtain ⟨hresults, hmod, hredirects, hevents⟩ := fullRun_of_settled (p := { config })
    (fun token htoken => (hsettled token htoken).1) ⟨hidle, by rw [hjournal]⟩
  refine ⟨hresults, hmod, ?_, ?_⟩
  · intro e he
    rw [show afresh.journal.events = _ from hevents] at he
    split_ifs at he
    · cases he
    · exact locate_events { config } after e he
  · refine hredirects.trans ?_
    rw [Nat.zero_add, List.sum_eq_zero_iff]
    intro n hn
    obtain ⟨token, htoken, rfl⟩ := List.mem_map.mp hn
    exact (hsettled token htoken).2

/-- **A second run has nothing to do.** Let a full run of a new recovery succeed and remove the
converted fields; types, methods and fields may share tokens. Then another full run over the module
that it leaves succeeds, reports no change for any type and leaves the module exactly as it is. This
holds of the same recovery, which records no event, and of a new one with any configuration, which
records nothing but candidates and counts no access. -/
theorem second_run_idle (config other : RecoveryConfig) (hremove : config.removeFields = true)
    (mod : Module) (hok : (session { config } mod (fullRun mod)).Succeeds) :
    let s := session { config } mod (fullRun mod)
    let again := s.pass.session s.mod (fullRun s.mod)
    let afresh := session { config := other } s.mod (fullRun s.mod)
    ((∀ r ∈ again.results, r = .ok false) ∧ again.mod = s.mod ∧ again.journal.events = []) ∧
      (∀ r ∈ afresh.results, r = .ok false) ∧ afresh.mod = s.mod ∧
      (∀ e ∈ afresh.journal.events, e.kind = .candidateIdentified) ∧
      afresh.pass.redirects = 0 := by
  intro s
  -- the first run, up to its last call
  obtain ⟨hresults, hpass, hmod, _⟩ :=
    session_finalize { config } mod (mod.typeTokens.map .process)
  have hok₀ : (session { config } mod (mod.typeTokens.map .process)).Succeeds := fun r hr =>
    hok r (hresults ▸ List.mem_append_left _ hr)
  have htokens := ((tracked_start config mod).session mod.typeTokens).typeTokens_eq
  have hsettled : ∀ token ∈ (session { config } mod (mod.typeTokens.map .process)).mod.typeTokens,
      (session { config } mod (mod.typeTokens.map .process)).mod.SettledAt
        (Candidate.collect mod.globalFields)
        (session { config } mod (mod.typeTokens.map .process)).pass.bindings token := by
    intro token htoken
    exact settledAt_session hok₀ (Or.inl (htokens ▸ htoken))
  rw [show s.pass = _ from hpass, show s.mod = _ from hmod]
  refine ⟨again_of_settled (fun hne => ?_) hsettled, ?_⟩
  · exact session_candidates (htokens ▸ hne) { config } mod
  · refine afresh_of_settled ?_ (globalFields_session mod.typeTokens) hsettled other
    rw [session_config]
    exact hremove

theorem second_run_idle_hoistedCounter :
    let s := session {} hoistedCounter (fullRun hoistedCounter)
    let again := s.pass.session s.mod (fullRun s.mod)
    let afresh := session { config := { shrinkCode := false } } s.mod (fullRun s.mod)
    s.Succeeds ∧ s.mod ≠ hoistedCounter ∧ s.mod.Accesses ⟨0x04000001⟩ ∧
      again.results.length = 3 ∧ (∀ r ∈ again.results, r = .ok false) ∧ again.mod = s.mod ∧
      again.journal.events = [] ∧ afresh.mod = s.mod ∧ afresh.pass.redirects = 0 := by
  intro s again afresh
  have hok : s.Succeeds := by decide +kernel
  obtain ⟨⟨hresults, hmod, hevents⟩, _, hmod', _, hredirects⟩ :=
    second_run_idle {} { shrinkCode := false } rfl hoistedCounter hok
  exact ⟨hok, by decide +kernel, by decide +kernel, by decide +kernel, hresults, hmod, hevents,
    hmod', hredirects⟩

end Recovery

end LocalRecovery
