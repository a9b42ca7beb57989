import LocalRecovery.Journal.EventLog
import Mathlib.Data.Finset.Card
import Mathlib.Data.String.Basic
import Mathlib.Tactic

set_option autoImplicit false

/-! # The views of a log agree

The views of a log are traversals of their own: one pass that counts by kind, a count for each
single kind, a search, a selection. They say the same about every log (`views_agree`).

The pass that counts is in closed form `countByKind_eq`: the kinds by their first occurrence, each
with the count of the log for it. Of the summary, `summaryOf_perm` says that it depends on which
counts there are and not on their order, because the changes are sorted before they are joined.
-/

namespace LocalRecovery

/-! ## Lists without repetitions -/

theorem eraseDups_concat {α : Type} [DecidableEq α] (l : List α) (a : α) :
    (l ++ [a]).eraseDups = if a ∈ l then l.eraseDups else l.eraseDups ++ [a] := by
  rw [List.eraseDups_append]
  by_cases h : a ∈ l <;> simp [List.removeAll, List.eraseDups_cons, h]

theorem nodup_eraseDups {α : Type} [DecidableEq α] (l : List α) : l.eraseDups.Nodup := by
  induction l using List.reverseRecOn with
  | nil => simp
  | append_singleton l a ih =>
      rw [eraseDups_concat]
      split_ifs with h
      · exact ih
      · rw [List.nodup_append_comm, List.singleton_append, List.nodup_cons, List.mem_eraseDups]
        exact ⟨h, ih⟩

namespace EventLog

/-! ## Counting by kind -/

theorem sum_tally (kind : EventKind) (counts : List (EventKind × Nat)) :
    ((tally kind counts).map Prod.snd).sum = (counts.map Prod.snd).sum + 1 := by
  induction counts with
  | nil => rfl
  | cons entry rest ih =>
      rcases entry with ⟨other, count⟩
      unfold tally
      split_ifs
      · simp only [List.map_cons, List.sum_cons]
        omega
      · simp only [List.map_cons, List.sum_cons, ih]
        omega

/-- An event of another kind changes no count. -/
theorem map_count_of_notMem {kind : EventKind} {kinds : List EventKind} (h : kind ∉ kinds)
    (count : EventKind → Nat) :
    kinds.map (fun k => (k, count k + if kind = k then 1 else 0)) =
      kinds.map fun k => (k, count k) := by
  refine List.map_congr_left fun k hk => ?_
  have hne : kind ≠ k := fun heq => h (heq ▸ hk)
  rw [if_neg hne, Nat.add_zero]

/-- One more event of a kind raises its count by one, or starts it. -/
theorem tally_map (kind : EventKind) (count : EventKind → Nat) {kinds : List EventKind}
    (hnodup : kinds.Nodup) :
    tally kind (kinds.map fun k => (k, count k)) =
      if kind ∈ kinds then kinds.map fun k => (k, count k + if kind = k then 1 else 0)
      else kinds.map (fun k => (k, count k)) ++ [(kind, 1)] := by
  induction kinds with
  | nil => rfl
  | cons first rest ih =>
      obtain ⟨hfirst, hrest⟩ := List.nodup_cons.mp hnodup
      rw [List.map_cons, tally]
      by_cases heq : first = kind
      · subst heq
        simp [map_count_of_notMem hfirst]
      · have hne : kind ≠ first := fun h => heq h.symm
        rw [if_neg heq, ih hrest]
        by_cases hmem : kind ∈ rest <;> simp [hmem, hne]

/-- The kinds by their first occurrence, each with its count. -/
theorem countByKind_eq (log : EventLog) :
    log.countByKind =
      (log.events.map Event.kind).eraseDups.map fun kind => (kind, log.countKind kind) := by
  rcases log with ⟨events⟩
  unfold countByKind countKind
  -- the pass goes from the first event to the last, so the last one is split off
  induction events using List.reverseRecOn with
  | nil => rfl
  | append_singleton events e ih =>
      have hcount : ∀ kind : EventKind, (events ++ [e]).countP (fun e => e.kind == kind) =
          events.countP (fun e => e.kind == kind) + if e.kind = kind then 1 else 0 := by
        intro kind
        simp [List.countP_append, List.countP_singleton]
      rw [List.foldl_append, List.foldl_cons, List.foldl_nil, ih,
        tally_map _ _ (nodup_eraseDups _), List.map_append, List.map_singleton, eraseDups_concat]
      simp only [hcount, List.mem_eraseDups]
      split_ifs with h
      · rfl
      · have hzero : events.countP (fun e' => e'.kind == e.kind) = 0 := by
          refine List.countP_eq_zero.mpr fun e' he' => ?_
          have hne : e'.kind ≠ e.kind := fun heq => h (heq ▸ List.mem_map_of_mem he')
          simpa using hne
        rw [List.map_append, map_count_of_notMem (by rwa [List.mem_eraseDups])]
        simp [hzero]

theorem mem_countByKind_iff (log : EventLog) (kind : EventKind) (count : Nat) :
    (kind, count) ∈ log.countByKind ↔
      (∃ e ∈ log.events, e.kind = kind) ∧ count = log.countKind kind := by
  rw [countByKind_eq]
  simp only [List.mem_map, List.mem_eraseDups, Prod.mk.injEq]
  constructor
  · rintro ⟨k, hpresent, rfl, rfl⟩
    exact ⟨hpresent, rfl⟩
  · rintro ⟨hpresent, rfl⟩
    exact ⟨kind, hpresent, rfl, rfl⟩

theorem nodup_countByKind (log : EventLog) : (log.countByKind.map Prod.fst).Nodup := by
  rw [countByKind_eq, List.map_map]
  exact (nodup_eraseDups _).map fun _ _ h => h

/-- Every event is counted once. -/
theorem sum_countByKind (log : EventLog) : (log.countByKind.map Prod.snd).sum = log.size := by
  have hrun : ∀ (events : List Event) (counts : List (EventKind × Nat)),
      ((events.foldl (fun counts e => tally e.kind counts) counts).map Prod.snd).sum =
        (counts.map Prod.snd).sum + events.length := by
    intro events
    induction events with
    | nil => intro counts; rfl
    | cons e rest ih =>
        intro counts
        rw [List.foldl_cons, ih, sum_tally, List.length_cons]
        omega
  have h := hrun log.events []
  simpa [countByKind, size] using h

/-! ## The single views -/

theorem has_iff_exists (log : EventLog) (kind : EventKind) :
    log.has kind = true ↔ ∃ e ∈ log.events, e.kind = kind := by
  simp [has]

theorem has_iff_pos (log : EventLog) (kind : EventKind) :
    log.has kind = true ↔ 0 < log.countKind kind := by
  unfold has countKind
  rw [List.any_eq_true, List.countP_pos_iff]

theorem transformationCount_eq (log : EventLog) :
    log.transformationCount =
      log.countKind .accessRedirected + log.countKind .localCreated
        + log.countKind .artifactRemoved := by
  rcases log with ⟨events⟩
  unfold transformationCount countKind
  induction events with
  | nil => rfl
  | cons e rest ih =>
      simp only [List.countP_cons, ih]
      cases e.kind <;> simp [EventKind.isTransformation] <;> omega

theorem inMethod_ne_nil_iff (log : EventLog) (method : Token) :
    log.inMethod method ≠ [] ↔ ∃ e ∈ log.events, e.method = some method := by
  simp [inMethod]

theorem methodsAffected_eq_card (log : EventLog) :
    ∃ methods : Finset Token,
      (∀ method, method ∈ methods ↔ log.inMethod method ≠ []) ∧
      log.methodsAffected = methods.card := by
  refine ⟨(log.events.filterMap Event.method).eraseDups.toFinset, fun method => ?_, ?_⟩
  · rw [List.mem_toFinset, List.mem_eraseDups, List.mem_filterMap, inMethod_ne_nil_iff]
  · rw [List.toFinset_card_of_nodup (nodup_eraseDups _)]
    rfl

/-! ## The summary -/

theorem pairwise_mergeSort_le (l : List String) :
    (l.mergeSort fun a b => decide (a ≤ b)).Pairwise (· ≤ ·) := by
  have htrans : ∀ a b c : String, decide (a ≤ b) = true → decide (b ≤ c) = true →
      decide (a ≤ c) = true := by
    intro a b c
    simpa using le_trans
  have htotal : ∀ a b : String, (decide (a ≤ b) || decide (b ≤ a)) = true := by
    intro a b
    simpa using le_total a b
  simpa using List.pairwise_mergeSort htrans htotal l

theorem mergeSort_eq_of_perm {l l' : List String} (h : l.Perm l') :
    l.mergeSort (fun a b => decide (a ≤ b)) = l'.mergeSort fun a b => decide (a ≤ b) := by
  refine List.Perm.eq_of_pairwise (fun a b _ _ => le_antisymm) (pairwise_mergeSort_le l)
    (pairwise_mergeSort_le l') ?_
  exact (List.mergeSort_perm l _).trans (h.trans (List.mergeSort_perm l' _).symm)

/-- The order of the counts plays no part. -/
theorem summaryOf_perm (total : Nat) {counts counts' : List (EventKind × Nat)}
    (h : counts.Perm counts') : summaryOf total counts = summaryOf total counts' := by
  unfold summaryOf
  have hchanges := (h.filter fun entry => entry.1.isTransformation).map fun entry =>
    toString entry.2 ++ " " ++ entry.1.description
  simp only [hchanges.isEmpty_eq, mergeSort_eq_of_perm hchanges]

theorem countKind_perm {log other : EventLog} (h : log.events.Perm other.events)
    (kind : EventKind) : log.countKind kind = other.countKind kind :=
  h.countP_eq _

/-- The order of the events plays no part in the counts, apart from their own order. -/
theorem countByKind_perm {log other : EventLog} (h : log.events.Perm other.events) :
    log.countByKind.Perm other.countByKind := by
  have hnodup := (List.perm_ext_iff_of_nodup log.nodup_countByKind.of_map
    other.nodup_countByKind.of_map).mpr
  refine hnodup fun entry => ?_
  rcases entry with ⟨kind, count⟩
  simp only [mem_countByKind_iff, h.mem_iff, countKind_perm h]

/-- The entries of the summary, sorted or not, are those of the changes that occur. -/
theorem changes_perm (log : EventLog) :
    ((log.countByKind.filter fun entry => entry.1.isTransformation).map fun entry =>
        toString entry.2 ++ " " ++ entry.1.description).Perm
      ((EventKind.all.filter fun kind => kind.isTransformation && log.has kind).map fun kind =>
        toString (log.countKind kind) ++ " " ++ kind.description) := by
  have hall : ∀ kind : EventKind, kind ∈ EventKind.all := by
    intro kind
    cases kind <;> decide
  have hkinds : (EventKind.all.filter fun kind => kind.isTransformation && log.has kind).Nodup :=
    List.Nodup.filter _ (by decide)
  have hperm : (log.countByKind.filter fun entry => entry.1.isTransformation).Perm
      ((EventKind.all.filter fun kind => kind.isTransformation && log.has kind).map fun kind =>
        (kind, log.countKind kind)) := by
    refine (List.perm_ext_iff_of_nodup (log.nodup_countByKind.of_map.filter _)
      (hkinds.map fun _ _ heq => (Prod.mk.inj heq).1)).mpr fun entry => ?_
    rcases entry with ⟨kind, count⟩
    simp only [List.mem_filter, mem_countByKind_iff, ← has_iff_exists, List.mem_map, hall,
      true_and, Bool.and_eq_true, Prod.mk.injEq]
    constructor
    · rintro ⟨⟨hhas, rfl⟩, hchange⟩
      exact ⟨kind, ⟨hchange, hhas⟩, rfl, rfl⟩
    · rintro ⟨_, ⟨hchange, hhas⟩, rfl, rfl⟩
      exact ⟨⟨hhas, rfl⟩, hchange⟩
  have htext := hperm.map fun entry => toString entry.2 ++ " " ++ entry.1.description
  rw [List.map_map] at htext
  exact htext

theorem changes_eq_nil_iff (log : EventLog) :
    (log.countByKind.filter fun entry => entry.1.isTransformation) = [] ↔
      ∀ e ∈ log.events, e.kind.isTransformation = false := by
  rw [List.filter_eq_nil_iff]
  constructor
  · intro h e he
    have hentry := h (e.kind, log.countKind e.kind)
      ((mem_countByKind_iff log _ _).mpr ⟨⟨e, he, rfl⟩, rfl⟩)
    simpa using hentry
  · rintro h ⟨kind, count⟩ hentry
    obtain ⟨⟨e, he, rfl⟩, _⟩ := (mem_countByKind_iff log _ _).mp hentry
    simp [h e he]

theorem summary_of_unchanged {log : EventLog} (hne : log.events ≠ [])
    (h : ∀ e ∈ log.events, e.kind.isTransformation = false) :
    log.summary = toString log.size ++ " events" := by
  have hsize : log.size ≠ 0 := by simpa [size] using hne
  unfold summary summaryOf
  rw [log.changes_eq_nil_iff.mpr h]
  simp [hsize]

theorem summary_of_changed {log : EventLog} (h : ∃ e ∈ log.events, e.kind.isTransformation = true) :
    ∃ entries : List String,
      entries.Pairwise (· ≤ ·) ∧
      entries.Perm
        ((EventKind.all.filter fun kind => kind.isTransformation && log.has kind).map fun kind =>
          toString (log.countKind kind) ++ " " ++ kind.description) ∧
      log.summary = String.intercalate ", " entries := by
  obtain ⟨e, he, hchange⟩ := h
  have hsize : log.size ≠ 0 := by
    unfold size
    exact List.length_pos_of_mem he |>.ne'
  have hsome : (log.countByKind.filter fun entry => entry.1.isTransformation) ≠ [] := by
    intro hnil
    have hnone := log.changes_eq_nil_iff.mp hnil e he
    rw [hchange] at hnone
    cases hnone
  refine ⟨_, pairwise_mergeSort_le _, (List.mergeSort_perm _ _).trans log.changes_perm, ?_⟩
  unfold summary summaryOf
  simp [hsize, hsome]

/-- **The views of a log agree.** Counting by kind gives one entry for each kind that occurs, with
the count of that kind, and the counts add up to the number of events. An event of a kind is found
exactly if their count is positive. The changes are counted by the three kinds of changes together,
and the methods are those with an event in them.

The summary is the same for all logs with these events, whatever their order and the order of the
counts. It tells that there are no events, or how many there are if none is a change; otherwise it
joins one entry for each kind of change that occurs, sorted as text. -/
theorem views_agree (log : EventLog) :
    (∀ kind count, (kind, count) ∈ log.countByKind ↔
      (∃ e ∈ log.events, e.kind = kind) ∧ count = log.countKind kind) ∧
    (log.countByKind.map Prod.fst).Nodup ∧
    (log.countByKind.map Prod.snd).sum = log.size ∧
    (∀ kind, log.has kind = true ↔ 0 < log.countKind kind) ∧
    log.transformationCount =
      log.countKind .accessRedirected + log.countKind .localCreated
        + log.countKind .artifactRemoved ∧
    (∃ methods : Finset Token,
      (∀ method, method ∈ methods ↔ log.inMethod method ≠ []) ∧
      log.methodsAffected = methods.card) ∧
    (∀ (other : EventLog) (counts : List (EventKind × Nat)),
      other.events.Perm log.events → counts.Perm other.countByKind →
      summaryOf other.size counts = log.summary) ∧
    (log.events = [] → log.summary = "no events") ∧
    (log.events ≠ [] → (∀ e ∈ log.events, e.kind.isTransformation = false) →
      log.summary = toString log.size ++ " events") ∧
    ((∃ e ∈ log.events, e.kind.isTransformation = true) →
      ∃ entries : List String,
        entries.Pairwise (· ≤ ·) ∧
        entries.Perm
          ((EventKind.all.filter fun kind => kind.isTransformation && log.has kind).map fun kind =>
            toString (log.countKind kind) ++ " " ++ kind.description) ∧
        log.summary = String.intercalate ", " entries) := by
  refine ⟨log.mem_countByKind_iff, log.nodup_countByKind, log.sum_countByKind, log.has_iff_pos,
    log.transformationCount_eq, log.methodsAffected_eq_card, ?_, ?_, summary_of_unchanged,
    summary_of_changed⟩
  · intro other counts hevents hcounts
    have hsize : other.size = log.size := hevents.length_eq
    rw [hsize]
    exact summaryOf_perm log.size (hcounts.trans (countByKind_perm hevents))
  · intro hempty
    unfold summary summaryOf size
    simp [hempty]

/-- Ten comes before two, since the entries are sorted as text, and they stay so if the events come in
the opposite order and the counts in any. -/
theorem views_agree_ten :
    let log : EventLog :=
      ⟨{ kind := .localCreated } :: { kind := .warning } :: { kind := .localCreated }
        :: List.replicate 10 { kind := .accessRedirected, method := some ⟨0x06000001⟩ }⟩
    (∃ e ∈ log.events, e.kind.isTransformation = true) ∧
      log.summary = "10 access rewritten, 2 local created" ∧
      summaryOf 13 [(.warning, 1), (.accessRedirected, 10), (.localCreated, 2)] = log.summary := by
  intro log
  obtain ⟨_, _, _, _, _, _, horder, _, _, hchanges⟩ := views_agree log
  have hchange : ∃ e ∈ log.events, e.kind.isTransformation = true :=
    ⟨{ kind := .localCreated }, List.mem_cons_self, rfl⟩
  obtain ⟨entries, hsorted, hperm, hsummary⟩ := hchanges hchange
  have htexts : ((EventKind.all.filter fun kind => kind.isTransformation && log.has kind).map
      fun kind => toString (log.countKind kind) ++ " " ++ kind.description) =
      ["10 access rewritten", "2 local created"] := by decide +kernel
  rw [htexts] at hperm
  have hentries : entries = ["10 access rewritten", "2 local created"] :=
    hperm.eq_of_pairwise (fun _ _ _ _ => le_antisymm) hsorted (by decide)
  refine ⟨hchange, ?_, ?_⟩
  · rw [hsummary, hentries]
    decide +kernel
  · exact horder ⟨log.events.reverse⟩ _ (List.reverse_perm _) (by decide +kernel)

end EventLog

end LocalRecovery
