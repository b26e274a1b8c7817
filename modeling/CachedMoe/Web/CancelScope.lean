import CachedMoe.Web.Bridge
import Mathlib.Data.List.Basic
import Mathlib.Order.Basic

/-! # What a cancel reaches

    A cancel line stops every generate the engine has read. It stops its own job's alone when each
    generate written before it is that job's, or an earlier one that has ended or is cancelled.
    `Bridge.cancel` writes its line after it has released the lock, when the next job's generate
    may be out.

    * `Isolated`: what the callers rely on;
    * `Scoped`: the condition on the writing of a cancel line;
    * `Inv`: the invariant of the runs whose lines are `Scoped`. -/

namespace CachedMoe.Web

open LTS

namespace Bridge

/-! ### The property -/

/-- The number the engine's inbox gives a generate request. -/
def seq (s : Bridge) (j : Nat) : Nat := s.generates.idxOf j + 1

/-- A cancel line for the job is about to be written. -/
def Owed (s : Bridge) (j : Nat) : Prop :=
  .found j ∈ s.handlers ∨ s.lock = some j ∨ s.worker = .sent j

structure Isolated (s : Bridge) : Prop where
  /-- Only a cancelled job's turn ends with `cancel`. -/
  ended : ∀ j, (j, .cancel) ∈ s.ended → (s.job j).cancelled = true
  dropped : ∀ j ∈ s.dropped, (s.job j).cancelled = true
  /-- A started job that was cancelled gets a cancel line after its generate request. -/
  covered : ∀ j ∈ s.found, j ∈ s.generates → s.Owed j ∨
    (∃ n, .cancel j n ∈ s.stdin ∧ s.seq j ≤ n) ∨ ∃ n, (j, n) ∈ s.acks ∧ s.seq j ≤ n
  /-- It covers no later generate. -/
  no_later : ∀ j n, (j, n) ∈ s.acks → ∀ k ∈ s.generates, s.seq k ≤ n → k ≤ j

/-- The cancels that name a job. -/
def Names (s : Bridge) (j : Nat) : BridgeAct → Prop
  | .cancel session => (s.job j).session = session
  | .leave i => j = i
  | .cancel_left i => (s.job j).session = (s.job i).session
  | .cancel_job i => j = i
  | _ => False

/-- A cancel line does the turn no harm: it has ended, or is cancelled itself. -/
def Settled (s : Bridge) (k : Nat) : Prop :=
  k ∈ s.ended.map Prod.fst ∨ (s.job k).cancelled = true

/-- The generates the engine has or will read are the job's, or earlier ones that are settled. -/
def Alone (s : Bridge) (j : Nat) : Prop :=
  ∀ k ∈ s.generates, k = j ∨ k < j ∧ s.Settled k

/-- A cancel line is written only for a job that is alone. -/
def Scoped (s : Bridge) : BridgeAct → Prop
  | .send_cancel j => s.Alone j
  | .send_locked => ∀ j ∈ s.lock, s.Alone j
  | .check_cancelled => ∀ j ∈ s.worker.job, (s.job j).cancelled = true → s.Alone j
  | _ => True

/-! ### The invariant -/

/-- Each cancel line has the number of the generates before it, when `n` were read. -/
def Stamped : Nat → List Line → Prop
  | _, [] => True
  | n, .generate _ :: lines => Stamped (n + 1) lines
  | n, .cancel _ before :: lines => before = n ∧ Stamped n lines

/-- The turn whose generate request may be written. -/
def asked : Turn → Option Nat
  | .sent j => some j
  | .reading j => some j
  | .returned j => some j
  | _ => none

structure Inv (s : Bridge) : Prop extends Isolated s where
  sorted : s.jobs.Pairwise (· < ·)
  jobs_lt : ∀ j ∈ s.jobs, j < s.submitted
  marked_lt : ∀ j, (s.job j).cancelled = true → j < s.submitted
  /-- The worker's job is the first, and the only started one in the queue. -/
  working : ∀ j, s.worker.job = some j → s.jobs.head? = some j ∧ (s.job j).started = true
  started : ∀ j ∈ s.jobs, (s.job j).started = true → s.worker.job = some j
  sent_sorted : s.generates.Pairwise (· < ·)
  sent_lt : ∀ k ∈ s.generates, k < s.submitted
  sent_le : ∀ k ∈ s.generates, ∀ j ∈ s.jobs, k < j ∨ k = j ∧ asked s.worker = some j
  /-- Whatever a cancel line is for is cancelled. -/
  locked : ∀ j, s.lock = some j → (s.job j).cancelled = true
  handled : ∀ j, .found j ∈ s.handlers → (s.job j).cancelled = true
  found_marked : ∀ j ∈ s.found, (s.job j).cancelled = true
  line_marked : ∀ j n, .cancel j n ∈ s.stdin → (s.job j).cancelled = true
  numbered : s.items.map Prod.snd = List.range' (s.ended.length + 1) s.items.length
  counted : s.generates_read = s.ended.length + s.items.length
  stamped : Stamped s.generates_read s.stdin
  upto_le : s.cancel_upto ≤ s.generates_read
  acks_le : ∀ j n, (j, n) ∈ s.acks → n ≤ s.generates_read
  line_alone : ∀ j n, .cancel j n ∈ s.stdin → ∀ k ∈ s.generates.take n,
    k = j ∨ k < j ∧ s.Settled k
  reached : ∀ k ∈ s.generates.take s.cancel_upto, s.Settled k

variable {s s' : Bridge} {j k n : Nat}

theorem inv_init : Inv {} where
  ended := fun j hj => by cases hj
  dropped := fun j hj => by cases hj
  covered := fun j hj => by cases hj
  no_later := fun j n hj => by cases hj
  sorted := .nil
  jobs_lt := fun j hj => by cases hj
  marked_lt := fun j hj => by cases hj
  working := fun j hj => by cases hj
  started := fun j hj => by cases hj
  sent_sorted := .nil
  sent_lt := fun k hk => by cases hk
  sent_le := fun k hk => by cases hk
  locked := fun j hj => by cases hj
  handled := fun j hj => by cases hj
  found_marked := fun j hj => by cases hj
  line_marked := fun j n hj => by cases hj
  numbered := rfl
  counted := rfl
  stamped := trivial
  upto_le := Nat.le_refl _
  acks_le := fun j n hj => by cases hj
  line_alone := fun j n hj => by cases hj
  reached := fun k hk => by cases hk

/-! #### Lines -/

theorem stamped_append (lines more : List Line) :
    Stamped n (lines ++ more) ↔
      Stamped n lines ∧ Stamped (n + (lines.filterMap Line.generate?).length) more := by
  induction lines generalizing n with
  | nil => simp [Stamped]
  | cons line lines ih =>
    cases line with
    | generate j =>
      rw [List.cons_append, Stamped, Stamped, ih]
      simp [Line.generate?, Nat.add_assoc, Nat.add_comm 1]
    | cancel j before =>
      rw [List.cons_append, Stamped, Stamped, ih, List.filterMap_cons_none rfl, and_assoc]

theorem Stamped.le {lines : List Line} {m : Nat} (h : Stamped m lines)
    (hmem : .cancel j n ∈ lines) : n ≤ m + (lines.filterMap Line.generate?).length := by
  induction lines generalizing m with
  | nil => cases hmem
  | cons line lines ih =>
    cases line with
    | generate i =>
      have hle := ih h (List.mem_of_ne_of_mem (fun heq => by cases heq) hmem)
      simp [Line.generate?]
      omega
    | cancel i before =>
      obtain ⟨rfl, hrest⟩ := h
      rcases List.mem_cons.mp hmem with heq | hmem
      · cases heq
        exact Nat.le_add_right ..
      · rw [List.filterMap_cons_none rfl]
        exact ih hrest hmem

theorem Inv.generates_length (h : Inv s) :
    s.generates.length = s.generates_read + (s.stdin.filterMap Line.generate?).length := by
  simp [generates, h.counted, Nat.add_assoc]

theorem seq_le_iff (hk : k ∈ s.generates) : s.seq k ≤ n ↔ k ∈ s.generates.take n :=
  (List.mem_take_iff_idxOf_lt hk).symm

/-! #### The queue -/

theorem mark_cancelled (h : (s.job k).cancelled = true) : ((s.mark j).job k).cancelled = true := by
  by_cases hk : k = j
  · subst hk
    simp [mark]
  · simpa [mark, hk] using h

theorem mark_self (s : Bridge) (j : Nat) : ((s.mark j).job j).cancelled = true := by
  simp [mark]

theorem mark_started (s : Bridge) (j k : Nat) :
    ((s.mark j).job k).started = (s.job k).started := by
  by_cases hk : k = j
  · subst hk
    simp [mark]
  · simp [mark, hk]

theorem mark_session (s : Bridge) (j k : Nat) :
    ((s.mark j).job k).session = (s.job k).session := by
  by_cases hk : k = j
  · subst hk
    simp [mark]
  · simp [mark, hk]

theorem Inv.mark (h : Inv s) (hj : j < s.submitted) : Inv (s.mark j) :=
  { h with
    ended := fun k hk => mark_cancelled (h.ended k hk)
    dropped := fun k hk => mark_cancelled (h.dropped k hk)
    marked_lt := fun k hk => by
      by_cases hkj : k = j
      · exact hkj ▸ hj
      · exact h.marked_lt k (by simpa [Bridge.mark, hkj] using hk)
    working := fun k hk => (h.working k hk).imp id ((mark_started s j k).trans ·)
    started := fun k hk hs => h.started k hk ((mark_started s j k).symm.trans hs)
    locked := fun k hk => mark_cancelled (h.locked k hk)
    handled := fun k hk => mark_cancelled (h.handled k hk)
    found_marked := fun k hk => mark_cancelled (h.found_marked k hk)
    line_marked := fun k n hk => mark_cancelled (h.line_marked k n hk)
    line_alone := fun k n hk i hi => (h.line_alone k n hk i hi).imp id
      (And.imp id (Or.imp id mark_cancelled))
    reached := fun k hk => (h.reached k hk).imp id mark_cancelled }

theorem Inv.drop (h : Inv s) (hidle : (s.job j).started = false)
    (hmark : (s.job j).cancelled = true) : Inv (s.drop j) :=
  { h with
    dropped := fun k hk => by
      rcases List.mem_append.mp hk with hk | hk
      · exact h.dropped k hk
      · rw [List.mem_singleton.mp hk]
        exact hmark
    sorted := h.sorted.sublist List.erase_sublist
    jobs_lt := fun k hk => h.jobs_lt k (List.mem_of_mem_erase hk)
    working := fun k hk => by
      obtain ⟨hhead, hstarted⟩ := h.working k hk
      refine ⟨?_, hstarted⟩
      obtain ⟨rest, hjobs⟩ := List.head?_eq_some_iff.mp hhead
      have hne : k ≠ j := fun heq => by
        rw [heq, hidle] at hstarted
        cases hstarted
      simp [Bridge.drop, hjobs, hne]
    started := fun k hk => h.started k (List.mem_of_mem_erase hk)
    sent_le := fun k hk i hi => h.sent_le k hk i (List.mem_of_mem_erase hi) }

theorem Inv.mark_drop (h : Inv s) (hj : j < s.submitted) (hidle : (s.job j).started = false) :
    Inv ((s.mark j).drop j) :=
  (h.mark hj).drop ((mark_started s j j).trans hidle) (mark_self s j)

/-- The first job, when it is started, is the worker's. -/
theorem mem_of_running (h : s.running_job = some j) :
    j ∈ s.jobs ∧ (s.job j).started = true := by
  obtain ⟨hhead, hstarted⟩ := Option.filter_eq_some_iff.mp h
  exact ⟨List.mem_of_mem_head? hhead, hstarted⟩

theorem Inv.cancel_one (h : Inv s) (session : String) (hj : j < s.submitted) :
    Inv (cancel_one session s j) := by
  unfold Bridge.cancel_one
  split
  · exact h
  · split
    · exact h.mark hj
    · rename_i hidle
      exact h.mark_drop hj (by simpa using hidle)

/-- What a cancel of a session does to the jobs. -/
structure Marks (session : String) (s s' : Bridge) : Prop where
  submitted : s'.submitted = s.submitted
  sessions : ∀ k, (s'.job k).session = (s.job k).session
  kept : ∀ k, (s.job k).cancelled = true → (s'.job k).cancelled = true
  only : ∀ k, (s'.job k).cancelled = true → (s.job k).cancelled = true ∨
    (s.job k).session = session

theorem Marks.refl (session : String) (s : Bridge) : Marks session s s :=
  ⟨rfl, fun _ => rfl, fun _ => id, fun _ => .inl⟩

theorem Marks.trans {session : String} {s'' : Bridge} (h : Marks session s s')
    (h' : Marks session s' s'') : Marks session s s'' where
  submitted := h'.submitted.trans h.submitted
  sessions := fun k => (h'.sessions k).trans (h.sessions k)
  kept := fun k hk => h'.kept k (h.kept k hk)
  only := fun k hk => (h'.only k hk).elim (h.only k) fun heq => .inr ((h.sessions k).symm.trans heq)

theorem cancel_one_marks (session : String) (s : Bridge) (i : Nat) :
    Marks session s (cancel_one session s i) ∧
      ((s.job i).session = session → ((cancel_one session s i).job i).cancelled = true) := by
  unfold Bridge.cancel_one
  split
  · rename_i hne
    exact ⟨.refl session s, fun heq => absurd heq hne⟩
  · rename_i heq
    have hmarks : Marks session s (s.mark i) := by
      refine ⟨rfl, mark_session s i, fun k hk => mark_cancelled hk, fun k hk => ?_⟩
      by_cases hki : k = i
      · exact .inr (hki ▸ not_not.mp heq)
      · exact .inl (by simpa [mark, hki] using hk)
    split
    · exact ⟨hmarks, fun _ => mark_self s i⟩
    · exact ⟨⟨rfl, hmarks.sessions, hmarks.kept, hmarks.only⟩, fun _ => mark_self s i⟩

theorem cancel_loop_marks (session : String) (js : List Nat) (s : Bridge) :
    Marks session s (js.foldl (cancel_one session) s) ∧
      ∀ j ∈ js, (s.job j).session = session →
        ((js.foldl (cancel_one session) s).job j).cancelled = true := by
  induction js generalizing s with
  | nil => exact ⟨.refl session s, fun j hj => by cases hj⟩
  | cons i js ih =>
    obtain ⟨hone, hcancelled⟩ := cancel_one_marks session s i
    obtain ⟨hmarks, hall⟩ := ih (cancel_one session s i)
    refine ⟨hone.trans hmarks, fun j hj hsession => ?_⟩
    rcases List.mem_cons.mp hj with rfl | hj
    · exact hmarks.kept j (hcancelled hsession)
    · exact hall j hj ((hone.sessions j).trans hsession)

theorem cancel_marks (s : Bridge) (session : String) : Marks session s (s.cancel session) := by
  obtain ⟨hmarks, -⟩ := cancel_loop_marks session s.jobs s
  unfold Bridge.cancel find_running
  split
  · split
    · exact ⟨hmarks.submitted, hmarks.sessions, hmarks.kept, hmarks.only⟩
    · exact hmarks
  · exact hmarks

theorem Inv.cancel_loop (h : Inv s) (session : String) {js : List Nat}
    (hjs : ∀ j ∈ js, j < s.submitted) : Inv (js.foldl (Bridge.cancel_one session) s) := by
  induction js generalizing s with
  | nil => exact h
  | cons i js ih =>
    refine ih (h.cancel_one session (hjs i (.head _))) fun j hj => ?_
    rw [(cancel_one_marks session s i).1.submitted]
    exact hjs j (.tail _ hj)

theorem cancel_one_jobs (session : String) (s : Bridge) (i : Nat) :
    (cancel_one session s i).jobs ⊆ s.jobs := by
  unfold Bridge.cancel_one
  split
  · exact List.Subset.refl _
  · split
    · exact List.Subset.refl _
    · exact List.erase_subset

theorem cancel_loop_jobs (session : String) (js : List Nat) (s : Bridge) :
    (js.foldl (cancel_one session) s).jobs ⊆ s.jobs := by
  induction js generalizing s with
  | nil => exact List.Subset.refl _
  | cons i js ih => exact List.Subset.trans (ih _) (cancel_one_jobs session s i)

/-- A started job that is cancelled and found has its line owed. -/
theorem Inv.find (h : Inv s) {r : Nat} (hmark : (s.job r).cancelled = true) :
    Inv { s with handlers := s.handlers ++ [.found r], found := s.found ++ [r] } :=
  { h with
    covered := fun j hj hsent => by
      rcases List.mem_append.mp hj with hj | hj
      · refine (h.covered j hj hsent).imp (fun howed => ?_) id
        exact howed.imp (List.mem_append_left _) id
      · rw [List.mem_singleton.mp hj]
        exact .inl (.inl (List.mem_append_right _ (.head _)))
    handled := fun j hj => by
      rcases List.mem_append.mp hj with hj | hj
      · exact h.handled j hj
      · cases List.mem_singleton.mp hj
        exact hmark
    found_marked := fun j hj => by
      rcases List.mem_append.mp hj with hj | hj
      · exact h.found_marked j hj
      · rw [List.mem_singleton.mp hj]
        exact hmark }

theorem Inv.cancel (h : Inv s) (session : String) : Inv (s.cancel session) := by
  have hinv := h.cancel_loop session h.jobs_lt
  obtain ⟨hmarks, hall⟩ := cancel_loop_marks session s.jobs s
  unfold Bridge.cancel find_running
  split
  · rename_i r hrunning
    split
    · rename_i hsession
      have hmem := cancel_loop_jobs session s.jobs s (mem_of_running hrunning).1
      exact hinv.find (hall r hmem ((hmarks.sessions r).symm.trans hsession))
    · exact hinv
  · exact hinv

theorem Inv.cancel_job (h : Inv s) (hlock : s.lock = none) : Inv (s.cancel_job j) := by
  unfold Bridge.cancel_job
  split
  · exact h
  · rename_i hmem
    have hj : j < s.submitted := h.jobs_lt j (not_not.mp hmem)
    split
    · have hmark := h.mark hj
      exact { hmark with
        covered := fun k hk hsent => by
          rcases List.mem_append.mp hk with hk | hk
          · refine (h.covered k hk hsent).imp (fun howed => ?_) id
            refine howed.imp id (Or.imp (fun heq => ?_) id)
            rw [hlock] at heq
            cases heq
          · rw [List.mem_singleton.mp hk]
            exact .inl (.inr (.inl rfl))
        locked := fun k hk => by
          cases hk
          exact mark_self s j
        found_marked := fun k hk => by
          rcases List.mem_append.mp hk with hk | hk
          · exact hmark.found_marked k hk
          · rw [List.mem_singleton.mp hk]
            exact mark_self s j }
    · rename_i hidle
      exact h.mark_drop hj (by simpa using hidle)

theorem Inv.submit (h : Inv s) (session : String) : Inv (s.submit session) := by
  -- what is marked stays so, and the queued jobs are not touched
  have hold : ∀ k, (s.job k).cancelled = true → ((s.submit session).job k).cancelled = true := by
    intro k hk
    have hne : k ≠ s.submitted := Nat.ne_of_lt (h.marked_lt k hk)
    simpa [Bridge.submit, hne] using hk
  have hsame : ∀ k ∈ s.jobs, (s.submit session).job k = s.job k := by
    intro k hk
    exact Function.update_of_ne (Nat.ne_of_lt (h.jobs_lt k hk)) ..
  exact { h with
    ended := fun k hk => hold k (h.ended k hk)
    dropped := fun k hk => hold k (h.dropped k hk)
    sorted := List.pairwise_append.mpr ⟨h.sorted, List.pairwise_singleton .., fun k hk i hi => by
      rw [List.mem_singleton.mp hi]
      exact h.jobs_lt k hk⟩
    jobs_lt := fun k hk => by
      rcases List.mem_append.mp hk with hk | hk
      · exact Nat.lt_succ_of_lt (h.jobs_lt k hk)
      · rw [List.mem_singleton.mp hk]
        exact Nat.lt_succ_self _
    marked_lt := fun k hk => by
      by_cases hks : k = s.submitted
      · rw [hks]
        exact Nat.lt_succ_self _
      · exact Nat.lt_succ_of_lt (h.marked_lt k (by simpa [Bridge.submit, hks] using hk))
    working := fun k hk => by
      obtain ⟨hhead, hstarted⟩ := h.working k hk
      have hmem := List.mem_of_mem_head? hhead
      refine ⟨?_, (congrArg Job.started (hsame k hmem)).trans hstarted⟩
      obtain ⟨rest, hjobs⟩ := List.head?_eq_some_iff.mp hhead
      simp [Bridge.submit, hjobs]
    started := fun k hk hs => by
      rcases List.mem_append.mp hk with hk | hk
      · exact h.started k hk ((congrArg Job.started (hsame k hk)).symm.trans hs)
      · rw [List.mem_singleton.mp hk] at hs
        simp [Bridge.submit] at hs
    sent_lt := fun k hk => Nat.lt_succ_of_lt (h.sent_lt k hk)
    sent_le := fun k hk i hi => by
      rcases List.mem_append.mp hi with hi | hi
      · exact h.sent_le k hk i hi
      · rw [List.mem_singleton.mp hi]
        exact .inl (h.sent_lt k hk)
    locked := fun k hk => hold k (h.locked k hk)
    handled := fun k hk => hold k (h.handled k hk)
    found_marked := fun k hk => hold k (h.found_marked k hk)
    line_marked := fun k n hk => hold k (h.line_marked k n hk)
    line_alone := fun k n hk i hi => (h.line_alone k n hk i hi).imp id
      (And.imp id (Or.imp id (hold i)))
    reached := fun k hk => (h.reached k hk).imp id (hold k) }

/-! #### The worker -/

/-- The worker goes on with its job. -/
theorem Inv.move (h : Inv s) {w : Turn} (hjob : w.job = s.worker.job)
    (hasked : ∀ i, asked s.worker = some i → asked w = some i)
    (hsent : ∀ i, s.worker = .sent i → i ∉ s.found) : Inv { s with worker := w } :=
  { h with
    covered := fun i hi hgen => by
      refine (h.covered i hi hgen).imp (fun howed => ?_) id
      rcases howed with hfound | hlock | hworker
      · exact .inl hfound
      · exact .inr (.inl hlock)
      · exact absurd hi (hsent i hworker)
    working := fun i hi => h.working i (hjob.symm.trans hi)
    started := fun i hi hs => hjob.trans (h.started i hi hs)
    sent_le := fun k hk i hi => (h.sent_le k hk i hi).imp id (And.imp id (hasked i)) }

theorem Inv.start (h : Inv s) {rest : List Nat} (hworker : s.worker = .waiting)
    (hjobs : s.jobs = j :: rest) :
    Inv { s with
      job := Function.update s.job j { s.job j with started := true }
      worker := .started j } := by
  have hcancelled : ∀ k, (Function.update s.job j { s.job j with started := true } k).cancelled =
      (s.job k).cancelled := by
    intro k
    by_cases hk : k = j
    · subst hk
      simp
    · simp [hk]
  have hkeep : ∀ k, (s.job k).cancelled = true →
      (Function.update s.job j { s.job j with started := true } k).cancelled = true :=
    fun k hk => (hcancelled k).trans hk
  exact { h with
    ended := fun k hk => hkeep k (h.ended k hk)
    dropped := fun k hk => hkeep k (h.dropped k hk)
    covered := fun k hk hgen => by
      refine (h.covered k hk hgen).imp (fun howed => ?_) id
      rcases howed with hfound | hlock | hsent
      -- a waiting worker has sent nothing
      · exact .inl hfound
      · exact .inr (.inl hlock)
      · rw [hworker] at hsent
        cases hsent
    marked_lt := fun k hk => h.marked_lt k ((hcancelled k).symm.trans hk)
    working := fun k hk => by
      obtain rfl : j = k := Option.some.inj hk
      exact ⟨by rw [hjobs]; rfl, by simp⟩
    started := fun k hk hs => by
      by_cases hkj : k = j
      · rw [hkj]
        rfl
      · have hno := h.started k hk (by simpa [hkj] using hs)
        rw [hworker] at hno
        cases hno
    sent_le := fun k hk i hi => by
      refine (h.sent_le k hk i hi).imp id (And.imp id fun hasked => ?_)
      rw [hworker] at hasked
      cases hasked
    locked := fun k hk => hkeep k (h.locked k hk)
    handled := fun k hk => hkeep k (h.handled k hk)
    found_marked := fun k hk => hkeep k (h.found_marked k hk)
    line_marked := fun k n hk => hkeep k (h.line_marked k n hk)
    line_alone := fun k n hk i hi => (h.line_alone k n hk i hi).imp id
      (And.imp id (Or.imp id (hkeep i)))
    reached := fun k hk => (h.reached k hk).imp id (hkeep k) }

theorem Inv.pop_job (h : Inv s) (hworker : s.worker = .returned j) :
    Inv { s with
      jobs := if s.jobs.head? = some j then s.jobs.tail else s.jobs
      worker := .waiting } := by
  obtain ⟨hhead, -⟩ := h.working j (by rw [hworker]; rfl)
  obtain ⟨rest, hjobs⟩ := List.head?_eq_some_iff.mp hhead
  have hsorted := h.sorted
  rw [hjobs, List.pairwise_cons] at hsorted
  have hmem : ∀ i ∈ rest, i ∈ s.jobs := fun i hi => by
    rw [hjobs]
    exact .tail _ hi
  rw [if_pos hhead, hjobs, List.tail_cons]
  exact { h with
    covered := fun k hk hgen => by
      refine (h.covered k hk hgen).imp (fun howed => ?_) id
      rcases howed with hfound | hlock | hsent
      · exact .inl hfound
      · exact .inr (.inl hlock)
      · rw [hworker] at hsent
        cases hsent
    sorted := hsorted.2
    jobs_lt := fun i hi => h.jobs_lt i (hmem i hi)
    working := fun i hi => by cases hi
    started := fun i hi hs => by
      have hj := h.started i (hmem i hi) hs
      rw [hworker] at hj
      obtain rfl : j = i := Option.some.inj hj
      exact absurd (hsorted.1 j hi) (Nat.lt_irrefl j)
    sent_le := fun k hk i hi => by
      -- what was asked is the job that leaves
      refine (h.sent_le k hk i (hmem i hi)).imp id fun ⟨_, hasked⟩ => ?_
      rw [hworker] at hasked
      obtain rfl : j = i := Option.some.inj hasked
      exact absurd (hsorted.1 j hi) (Nat.lt_irrefl j) }

/-! #### The lines -/

theorem generates_generate (s : Bridge) (j : Nat) (w : Turn) :
    generates { s with stdin := s.stdin ++ [.generate j], worker := w } = s.generates ++ [j] := by
  simp [generates, items, Line.generate?]

theorem Inv.line_le (h : Inv s) (hline : .cancel j n ∈ s.stdin) : n ≤ s.generates.length := by
  rw [h.generates_length]
  exact h.stamped.le hline

/-- The worker sends the generate line of its job, behind all the others. -/
theorem Inv.send_generate (h : Inv s) (hworker : s.worker = .started j) :
    Inv { s with stdin := s.stdin ++ [.generate j], worker := .sent j } := by
  obtain ⟨hhead, -⟩ := h.working j (by rw [hworker]; rfl)
  obtain ⟨rest, hjobs⟩ := List.head?_eq_some_iff.mp hhead
  have hsorted := h.sorted
  rw [hjobs, List.pairwise_cons] at hsorted
  have hjmem : j ∈ s.jobs := List.mem_of_mem_head? hhead
  -- the request is the latest job's
  have hlate : ∀ k ∈ s.generates, k < j := fun k hk =>
    (h.sent_le k hk j hjmem).resolve_right fun ⟨_, hasked⟩ => by
      rw [hworker] at hasked
      cases hasked
  have hgen := generates_generate s j (.sent j)
  have hseq : ∀ k ∈ s.generates,
      seq { s with stdin := s.stdin ++ [.generate j], worker := .sent j } k = s.seq k := by
    intro k hk
    rw [seq, hgen, List.idxOf_append_of_mem hk, seq]
  have hseq_new : s.generates.length <
      seq { s with stdin := s.stdin ++ [.generate j], worker := .sent j } j := by
    have hnot : j ∉ s.generates := fun hj => Nat.lt_irrefl j (hlate j hj)
    rw [seq, hgen, List.idxOf_append_of_notMem hnot]
    omega
  have htake : ∀ m ≤ s.generates.length, (s.generates ++ [j]).take m = s.generates.take m :=
    fun m hm => List.take_append_of_le_length hm
  have hread : s.generates_read ≤ s.generates.length := by
    rw [h.generates_length]
    exact Nat.le_add_right ..
  have hline : ∀ k m, .cancel k m ∈ s.stdin ++ [.generate j] → .cancel k m ∈ s.stdin := by
    intro k m hmem
    rcases List.mem_append.mp hmem with hmem | hmem
    · exact hmem
    · cases List.mem_singleton.mp hmem
  exact { h with
    covered := fun k hk hsent => by
      rw [hgen] at hsent
      rcases List.mem_append.mp hsent with hsent | hsent
      · rw [hseq k hsent]
        rcases h.covered k hk hsent with (hfound | hlock | hworker') | ⟨m, hm, hle⟩ | hack
        · exact .inl (.inl hfound)
        · exact .inl (.inr (.inl hlock))
        · rw [hworker] at hworker'
          cases hworker'
        · exact .inr (.inl ⟨m, List.mem_append_left _ hm, hle⟩)
        · exact .inr (.inr hack)
      · rw [List.mem_singleton.mp hsent]
        exact .inl (.inr (.inr rfl))
    no_later := fun i m hack k hk hle => by
      rw [hgen] at hk
      rcases List.mem_append.mp hk with hk | hk
      · rw [hseq k hk] at hle
        exact h.no_later i m hack k hk hle
      · obtain rfl := List.mem_singleton.mp hk
        have := h.acks_le i m hack
        omega
    working := fun i hi => h.working i (by rw [hworker]; exact hi)
    started := fun i hi hs => by
      have hi' := h.started i hi hs
      rw [hworker] at hi'
      exact hi'
    sent_sorted := by
      rw [hgen]
      refine List.pairwise_append.mpr
        ⟨h.sent_sorted, List.pairwise_singleton .., fun k hk i hi => ?_⟩
      rw [List.mem_singleton.mp hi]
      exact hlate k hk
    sent_lt := fun k hk => by
      rw [hgen] at hk
      rcases List.mem_append.mp hk with hk | hk
      · exact h.sent_lt k hk
      · rw [List.mem_singleton.mp hk]
        exact h.jobs_lt j hjmem
    sent_le := fun k hk i hi => by
      rw [hgen] at hk
      rcases List.mem_append.mp hk with hk | hk
      · refine (h.sent_le k hk i hi).imp id fun ⟨_, hasked⟩ => ?_
        rw [hworker] at hasked
        cases hasked
      · obtain rfl := List.mem_singleton.mp hk
        rw [hjobs] at hi
        rcases List.mem_cons.mp hi with rfl | hi
        · exact .inr ⟨rfl, rfl⟩
        · exact .inl (hsorted.1 i hi)
    line_marked := fun k m hm => h.line_marked k m (hline k m hm)
    stamped := (stamped_append _ _).mpr ⟨h.stamped, trivial⟩
    line_alone := fun k m hm i hi => by
      rw [hgen, htake m (h.line_le (hline k m hm))] at hi
      exact h.line_alone k m (hline k m hm) i hi
    reached := fun k hk => by
      have hle : s.cancel_upto ≤ s.generates.length := Nat.le_trans h.upto_le hread
      rw [hgen] at hk
      exact h.reached k (htake _ hle ▸ hk) }

/-- With the generates as they were, so is what is known of them. -/
theorem Inv.same_generates (h : Inv s) (hgen : s'.generates = s.generates) :
    (∀ i m, (i, m) ∈ s.acks → ∀ k ∈ s'.generates, s'.seq k ≤ m → k ≤ i) ∧
      s'.generates.Pairwise (· < ·) ∧ (∀ k ∈ s'.generates, k < s.submitted) ∧
      ∀ k ∈ s'.generates, ∀ j ∈ s.jobs, k < j ∨ k = j ∧ asked s.worker = some j := by
  simp only [seq, hgen]
  exact ⟨h.no_later, h.sent_sorted, h.sent_lt, h.sent_le⟩

/-- A cancel line whose job is alone. -/
theorem Inv.write_cancel (h : Inv s) (hmark : (s.job j).cancelled = true) (halone : s.Alone j) :
    Inv (s.write_cancel j) := by
  have hgen : (s.write_cancel j).generates = s.generates := by
    simp [generates, items, Bridge.write_cancel, Line.generate?]
  obtain ⟨hlater, hsorted, hlt, hle⟩ := h.same_generates hgen
  have hline : ∀ k m, .cancel k m ∈ (s.write_cancel j).stdin →
      .cancel k m ∈ s.stdin ∨ k = j ∧ m = s.generates.length := by
    intro k m hmem
    refine (List.mem_append.mp hmem).imp id fun hmem => ?_
    cases List.mem_singleton.mp hmem
    exact ⟨rfl, rfl⟩
  exact { h with
    covered := fun k hk hsent => by
      rw [seq, hgen] at *
      rcases h.covered k hk hsent with howed | ⟨m, hm, hle⟩ | hack
      · exact .inl howed
      · exact .inr (.inl ⟨m, List.mem_append_left _ hm, hle⟩)
      · exact .inr (.inr hack)
    no_later := hlater
    sent_sorted := hsorted
    sent_lt := hlt
    sent_le := hle
    line_marked := fun k m hm => by
      rcases hline k m hm with hm | ⟨rfl, -⟩
      · exact h.line_marked k m hm
      · exact hmark
    stamped := (stamped_append _ _).mpr ⟨h.stamped, h.generates_length, trivial⟩
    line_alone := fun k m hm i hi => by
      rw [hgen] at hi
      rcases hline k m hm with hm | ⟨rfl, rfl⟩
      · exact h.line_alone k m hm i hi
      · exact halone i (List.mem_of_mem_take hi)
    reached := fun k hk => by
      rw [hgen] at hk
      exact h.reached k hk }

/-- The line that was owed for the job is written. -/
def Written (s : Bridge) (j : Nat) : Prop :=
  ∃ n, .cancel j n ∈ s.stdin ∧ (j ∈ s.generates → s.seq j ≤ n)

theorem written (s : Bridge) (j : Nat) : (s.write_cancel j).Written j := by
  have hgen : (s.write_cancel j).generates = s.generates := by
    simp [generates, items, Bridge.write_cancel, Line.generate?]
  refine ⟨s.generates.length, List.mem_append_right _ (.head _), fun hmem => ?_⟩
  rw [hgen] at hmem
  rw [seq, hgen]
  exact List.idxOf_lt_length_of_mem hmem

/-- What is owed to others stays owed. -/
theorem Inv.covered_of_written (h : Inv s) (hwritten : s.Written j) {Owed' : Nat → Prop}
    (howed : ∀ k, k ≠ j → s.Owed k → Owed' k) : ∀ k ∈ s.found, k ∈ s.generates → Owed' k ∨
      (∃ n, .cancel k n ∈ s.stdin ∧ s.seq k ≤ n) ∨ ∃ n, (k, n) ∈ s.acks ∧ s.seq k ≤ n := by
  intro k hk hsent
  by_cases hkj : k = j
  · subst hkj
    obtain ⟨n, hline, hle⟩ := hwritten
    exact .inr (.inl ⟨n, hline, hle hsent⟩)
  · exact (h.covered k hk hsent).imp (howed k hkj) id

theorem Inv.settle_found (h : Inv s) (hwritten : s.Written j) :
    Inv { s with handlers := s.handlers.erase (.found j) } :=
  { h with
    covered := h.covered_of_written hwritten fun k hkj howed => by
      refine howed.imp (fun hmem => ?_) id
      exact (List.mem_erase_of_ne fun heq => hkj (Handler.found.inj heq)).mpr hmem
    handled := fun k hk => h.handled k (List.mem_of_mem_erase hk) }

theorem Inv.settle_lock (h : Inv s) (hlock : s.lock = some j) (hwritten : s.Written j) :
    Inv { s with lock := none } :=
  { h with
    covered := h.covered_of_written hwritten fun k hkj howed => by
      refine howed.imp id (Or.imp (fun hk => ?_) id)
      exact absurd (Option.some.inj (hk.symm.trans hlock)) hkj
    locked := fun k hk => by cases hk }

theorem Inv.settle_sent (h : Inv s) (hworker : s.worker = .sent j)
    (hsettled : j ∈ s.found → s.Written j) : Inv { s with worker := .reading j } :=
  { h with
    covered := fun k hk hsent => by
      rcases h.covered k hk hsent with (hfound | hlock | hk') | hrest
      · exact .inl (.inl hfound)
      · exact .inl (.inr (.inl hlock))
      · rw [hworker] at hk'
        obtain rfl := Turn.sent.inj hk'
        obtain ⟨n, hline, hle⟩ := hsettled hk
        exact .inr (.inl ⟨n, hline, hle hsent⟩)
      · exact .inr hrest
    working := fun i hi => h.working i (by rw [hworker]; exact hi)
    started := fun i hi hs => by
      have hi' := h.started i hi hs
      rw [hworker] at hi'
      exact hi'
    sent_le := fun k hk i hi => by
      have hle := h.sent_le k hk i hi
      rw [hworker] at hle
      exact hle }

/-! #### The engine -/

theorem Inv.read (h : Inv s) {line : Line} {rest : List Line} (hstdin : s.stdin = line :: rest) :
    Inv ({ s with stdin := rest }.read line) := by
  have hstamped := h.stamped
  rw [hstdin] at hstamped
  have hmem : ∀ k m, .cancel k m ∈ rest → .cancel k m ∈ s.stdin := fun k m hm => by
    rw [hstdin]
    exact .tail _ hm
  cases line with
  -- the turn gets the next number; a cancel acknowledges up to the last one given
  | generate j =>
    have hgen : generates ({ s with stdin := rest }.read (.generate j)) = s.generates := by
      simp [generates, items, Bridge.read, hstdin, Line.generate?]
    obtain ⟨hlater, hsorted, hlt, hle⟩ := h.same_generates hgen
    have hitems : items ({ s with stdin := rest }.read (.generate j)) =
        s.items ++ [(j, s.generates_read + 1)] := by
      simp [items, Bridge.read]
    exact { h with
      covered := fun k hk hsent => by
        rw [hgen] at hsent
        rw [seq, hgen]
        rcases h.covered k hk hsent with howed | ⟨m, hm, hle⟩ | hack
        · exact .inl howed
        · rw [hstdin] at hm
          rcases List.mem_cons.mp hm with heq | hm
          · cases heq
          · exact .inr (.inl ⟨m, hm, hle⟩)
        · exact .inr (.inr hack)
      no_later := hlater
      sent_sorted := hsorted
      sent_lt := hlt
      sent_le := hle
      line_marked := fun k m hm => h.line_marked k m (hmem k m hm)
      numbered := by
        have hnext : s.generates_read + 1 = s.ended.length + 1 + 1 * s.items.length := by
          rw [h.counted]
          omega
        rw [hitems, List.map_append, h.numbered, List.length_append, List.length_singleton,
          List.range'_concat]
        simp only [Bridge.read, ← hnext, List.map_cons, List.map_nil]
      counted := by
        rw [hitems, List.length_append, List.length_singleton]
        have := h.counted
        simp only [Bridge.read]
        omega
      stamped := hstamped
      upto_le := Nat.le_succ_of_le h.upto_le
      acks_le := fun i m hm => Nat.le_succ_of_le (h.acks_le i m hm)
      line_alone := fun k m hm i hi => by
        rw [hgen] at hi
        exact h.line_alone k m (hmem k m hm) i hi
      reached := fun k hk => by
        rw [hgen] at hk
        exact h.reached k hk }
  | cancel j before =>
    obtain ⟨rfl, hrest⟩ := hstamped
    have hgen : generates ({ s with stdin := rest }.read (.cancel j s.generates_read)) =
        s.generates := by
      rw [generates, generates, hstdin, List.filterMap_cons_none rfl]
      rfl
    obtain ⟨-, hsorted, hlt, hle⟩ := h.same_generates hgen
    have hline : .cancel j s.generates_read ∈ s.stdin := by
      rw [hstdin]
      exact .head _
    have halone := h.line_alone j s.generates_read hline
    exact { h with
      covered := fun k hk hsent => by
        rw [hgen] at hsent
        rw [seq, hgen]
        rcases h.covered k hk hsent with howed | ⟨m, hm, hle⟩ | ⟨m, hm, hle⟩
        · exact .inl howed
        · rw [hstdin] at hm
          rcases List.mem_cons.mp hm with heq | hm
          · cases heq
            exact .inr (.inr ⟨_, List.mem_append_right _ (.head _), hle⟩)
          · exact .inr (.inl ⟨m, hm, hle⟩)
        · exact .inr (.inr ⟨m, List.mem_append_left _ hm, hle⟩)
      no_later := fun i m hack k hk hle => by
        rw [hgen] at hk
        rw [seq, hgen] at hle
        rcases List.mem_append.mp hack with hack | hack
        · exact h.no_later i m hack k hk hle
        · cases List.mem_singleton.mp hack
          rcases halone k ((seq_le_iff hk).mp hle) with rfl | ⟨hlt, -⟩
          · exact Nat.le_refl _
          · exact Nat.le_of_lt hlt
      sent_sorted := hsorted
      sent_lt := hlt
      sent_le := hle
      line_marked := fun k m hm => h.line_marked k m (hmem k m hm)
      stamped := hrest
      upto_le := Nat.le_refl _
      acks_le := fun i m hack => by
        rcases List.mem_append.mp hack with hack | hack
        · exact h.acks_le i m hack
        · cases List.mem_singleton.mp hack
          exact Nat.le_refl _
      line_alone := fun k m hm i hi => by
        rw [hgen] at hi
        exact h.line_alone k m (hmem k m hm) i hi
      reached := fun k hk => by
        rw [hgen] at hk
        rcases halone k hk with rfl | ⟨-, hsettled⟩
        · exact .inr (h.line_marked _ _ hline)
        · exact hsettled }

/-- A generate request ends, with `cancel` only when the engine's number covers it. -/
theorem Inv.end_turn (h : Inv s) {q : Nat} {rest : List (Nat × Nat)} {f : Finish}
    (hitems : s.items = (j, q) :: rest) (hf : f = .cancel → q ≤ s.cancel_upto) :
    Inv ({ s with inbox := rest }.end_turn j f) := by
  have hsplit : s.generates = s.ended.map Prod.fst ++
      j :: (rest.map Prod.fst ++ s.stdin.filterMap Line.generate?) := by
    rw [generates, hitems]
    rfl
  have hgen : generates ({ s with inbox := rest }.end_turn j f) = s.generates := by
    rw [hsplit]
    simp [generates, items, Bridge.end_turn]
  obtain ⟨hlater, hsorted, hlt, hle⟩ := h.same_generates hgen
  have hended : ∀ k ∈ s.ended.map Prod.fst,
      k ∈ (s.ended ++ [(j, f)]).map Prod.fst := fun k hk => by
    rw [List.map_append]
    exact List.mem_append_left _ hk
  have hnumbered := h.numbered
  rw [hitems, List.map_cons, List.length_cons, List.range'_succ] at hnumbered
  obtain ⟨hq, hrest⟩ := List.cons.inj hnumbered
  -- a covered generate that has not ended is of a cancelled job
  have hcancelled : f = .cancel → (s.job j).cancelled = true := by
    intro hcancel
    have hlt : (s.ended.map Prod.fst).length < s.cancel_upto := by
      have := hf hcancel
      rw [List.length_map]
      omega
    have hmem : j ∈ s.generates.take s.cancel_upto := by
      rw [hsplit, List.take_append, List.mem_append]
      obtain ⟨m, hm⟩ := Nat.exists_eq_add_of_lt hlt
      rw [hm, show ∀ a b : Nat, a + b + 1 - a = b + 1 by omega]
      exact .inr (.head _)
    refine (h.reached j hmem).resolve_left fun hold => ?_
    have hsorted := h.sent_sorted
    rw [hsplit] at hsorted
    exact Nat.lt_irrefl j ((List.pairwise_append.mp hsorted).2.2 j hold j (.head _))
  exact { h with
    ended := fun k hk => by
      rcases List.mem_append.mp hk with hk | hk
      · exact h.ended k hk
      · cases List.mem_singleton.mp hk
        exact hcancelled rfl
    covered := fun k hk hsent => by
      rw [hgen] at hsent
      rw [seq, hgen]
      exact h.covered k hk hsent
    no_later := hlater
    sent_sorted := hsorted
    sent_lt := hlt
    sent_le := hle
    numbered := by
      simp only [items, Bridge.end_turn, Option.toList_none, List.nil_append, List.length_append,
        List.length_singleton]
      exact hrest
    counted := by
      have hcounted := h.counted
      rw [hitems, List.length_cons] at hcounted
      simp only [items, Bridge.end_turn, Option.toList_none, List.nil_append, List.length_append,
        List.length_singleton]
      omega
    line_alone := fun k m hm i hi => by
      rw [hgen] at hi
      exact (h.line_alone k m hm i hi).imp id (And.imp id (Or.imp (hended i) id))
    reached := fun k hk => by
      rw [hgen] at hk
      exact (h.reached k hk).imp (hended k) id }

/-- The main loop takes the request it runs. -/
theorem Inv.same_items (h : Inv s) {running : Option (Nat × Nat)} {inbox : List (Nat × Nat)}
    (hitems : s.items = running.toList ++ inbox) :
    Inv { s with inbox := inbox, running := running } := by
  have hgen : generates { s with inbox := inbox, running := running } = s.generates := by
    rw [generates, generates, hitems]
    rfl
  obtain ⟨hlater, hsorted, hlt, hle⟩ := h.same_generates hgen
  exact { h with
    covered := fun k hk hsent => by
      rw [hgen] at hsent
      rw [seq, hgen]
      exact h.covered k hk hsent
    no_later := hlater
    sent_sorted := hsorted
    sent_lt := hlt
    sent_le := hle
    numbered := by
      have hnumbered := h.numbered
      rw [hitems] at hnumbered
      exact hnumbered
    counted := by
      have hcounted := h.counted
      rw [hitems] at hcounted
      exact hcounted
    line_alone := fun k m hm i hi => by
      rw [hgen] at hi
      exact h.line_alone k m hm i hi
    reached := fun k hk => by
      rw [hgen] at hk
      exact h.reached k hk }

/-! ### Steps -/

/-- No scoped step breaks the invariant. -/
theorem Inv.step {a : BridgeAct} (h : Inv s) (hok : s.Scoped a) (hstep : s.next a = some s') :
    Inv s' := by
  cases a with
  | submit session =>
    simp only [next, Option.ite_none_right_eq_some, Option.some.injEq] at hstep
    obtain ⟨-, rfl⟩ := hstep
    exact h.submit session
  | cancel session =>
    simp only [next, Option.ite_none_right_eq_some, Option.some.injEq] at hstep
    obtain ⟨-, rfl⟩ := hstep
    exact h.cancel session
  | leave j =>
    simp only [next, Option.ite_none_right_eq_some, Option.some.injEq] at hstep
    obtain ⟨hj, rfl⟩ := hstep
    have hmark := h.mark hj
    -- the client of `j` is gone: its job is marked, and a handler is to tell the engine
    exact { hmark with
      covered := fun k hk hsent => (hmark.covered k hk hsent).imp
        (Or.imp (List.mem_append_left _) id) id
      handled := fun k hk => by
        rcases List.mem_append.mp hk with hk | hk
        · exact hmark.handled k hk
        · cases List.mem_singleton.mp hk }
  | cancel_left j =>
    simp only [next, Option.ite_none_right_eq_some, Option.some.injEq] at hstep
    obtain ⟨-, rfl⟩ := hstep
    have hrest : Inv { s with handlers := s.handlers.erase (.left j) } :=
      { h with
        covered := fun k hk hsent => (h.covered k hk hsent).imp
          (Or.imp (List.mem_erase_of_ne fun heq => by cases heq).mpr id) id
        handled := fun k hk => h.handled k (List.mem_of_mem_erase hk) }
    exact hrest.cancel _
  | send_cancel j =>
    simp only [next, Option.ite_none_right_eq_some, Option.some.injEq] at hstep
    obtain ⟨hfound, rfl⟩ := hstep
    exact (h.write_cancel (h.handled j hfound) hok).settle_found (written s j)
  | cancel_job j =>
    simp only [next, Option.ite_none_right_eq_some, Option.some.injEq] at hstep
    obtain ⟨⟨hlock, -⟩, rfl⟩ := hstep
    exact h.cancel_job hlock
  | send_locked =>
    simp only [next, Option.map_eq_some_iff] at hstep
    obtain ⟨j, hlock, rfl⟩ := hstep
    exact (h.write_cancel (h.locked j hlock) (hok j hlock)).settle_lock hlock (written s j)
  | start =>
    simp only [next] at hstep
    split at hstep
    · rename_i j rest hworker _ hjobs
      obtain rfl := Option.some.inj hstep
      exact h.start hworker hjobs
    · cases hstep
  | refuse =>
    simp only [next] at hstep
    split at hstep
    · rename_i j hworker
      obtain rfl := Option.some.inj hstep
      exact h.move (by rw [hworker]; rfl) (fun i hi => by rw [hworker] at hi; cases hi)
        (fun i hi => by rw [hworker] at hi; cases hi)
    · cases hstep
  | send_generate =>
    simp only [next] at hstep
    split at hstep
    · rename_i j hworker
      obtain rfl := Option.some.inj hstep
      exact h.send_generate hworker
    · cases hstep
  | check_cancelled =>
    simp only [next] at hstep
    split at hstep
    · rename_i j hworker
      obtain rfl := Option.some.inj hstep
      split
      · rename_i hmark
        have halone : s.Alone j := hok j (by rw [hworker]; rfl) hmark
        exact (h.write_cancel hmark halone).settle_sent hworker fun _ => written s j
      · rename_i hmark
        exact h.settle_sent hworker fun hfound => absurd (h.found_marked j hfound) hmark
    · cases hstep
  | finish =>
    simp only [next] at hstep
    split at hstep
    · rename_i j hworker
      simp only [Option.ite_none_right_eq_some, Option.some.injEq] at hstep
      obtain ⟨-, rfl⟩ := hstep
      exact h.move (by rw [hworker]; rfl) (fun i hi => by rw [hworker] at hi; exact hi)
        (fun i hi => by rw [hworker] at hi; cases hi)
    · cases hstep
  | stray =>
    simp only [next] at hstep
    split at hstep
    · rename_i j hworker
      obtain rfl := Option.some.inj hstep
      exact h.move (by rw [hworker]; rfl) (fun i hi => by rw [hworker] at hi; exact hi)
        (fun i hi => by rw [hworker] at hi; cases hi)
    · cases hstep
  | pop_job =>
    simp only [next] at hstep
    split at hstep
    · rename_i j hworker _
      obtain rfl := Option.some.inj hstep
      exact h.pop_job hworker
    · cases hstep
  | read =>
    simp only [next] at hstep
    split at hstep
    · rename_i line rest hstdin
      obtain rfl := Option.some.inj hstep
      exact h.read hstdin
    · cases hstep
  | serve refused =>
    simp only [next] at hstep
    split at hstep
    · rename_i j q rest hrunning hinbox
      obtain rfl := Option.some.inj hstep
      have hitems : s.items = (j, q) :: rest := by
        rw [items, hrunning, hinbox]
        rfl
      split
      · exact h.end_turn hitems fun heq => by cases heq
      · split
        · rename_i hcovered
          exact h.end_turn hitems fun _ => hcovered
        · exact h.same_items (hitems.trans rfl)
    · cases hstep
  | complete f =>
    simp only [next] at hstep
    split at hstep
    · rename_i j q hrunning
      split at hstep
      · cases hstep
      · rename_i hf
        obtain rfl := Option.some.inj hstep
        exact h.end_turn (by rw [items, hrunning]; rfl) fun heq => absurd heq hf
    · cases hstep
  | poll =>
    simp only [next] at hstep
    split at hstep
    · rename_i j q hrunning
      simp only [Option.ite_none_right_eq_some, Option.some.injEq] at hstep
      obtain ⟨hcovered, rfl⟩ := hstep
      exact h.end_turn (by rw [items, hrunning]; rfl) fun _ => hcovered
    · cases hstep

/-- The steps of callers that mark jobs, and the worker's start of one. -/
def writes_jobs : BridgeAct → Bool
  | .submit _ | .cancel _ | .leave _ | .cancel_left _ | .cancel_job _ | .start => true
  | _ => false

theorem read_job (s : Bridge) (line : Line) : (s.read line).job = s.job := by
  cases line <;> rfl

/-- The lines, the engine and the rest of the worker leave the jobs as they are. -/
theorem job_kept {a : BridgeAct} (ha : writes_jobs a = false) (hstep : s.next a = some s') :
    s'.job = s.job := by
  cases a <;> simp only [writes_jobs, Bool.true_eq_false] at ha <;>
    grind [next, write_cancel, end_turn, read_job, Option.map_eq_some_iff]

theorem mark_only (hbefore : (s.job j).cancelled = false) {i : Nat}
    (hafter : ((s.mark i).job j).cancelled = true) : j = i := by
  by_contra hji
  rw [show (s.mark i).job j = s.job j from Function.update_of_ne hji .., hbefore] at hafter
  cases hafter

theorem cancel_only {session : String} (hbefore : (s.job j).cancelled = false)
    (hafter : ((s.cancel session).job j).cancelled = true) : (s.job j).session = session := by
  refine ((cancel_marks s session).only j hafter).resolve_left fun hyes => ?_
  rw [hbefore] at hyes
  cases hyes

theorem cancel_job_only (hbefore : (s.job j).cancelled = false) {i : Nat}
    (hafter : ((s.cancel_job i).job j).cancelled = true) : j = i := by
  unfold Bridge.cancel_job at hafter
  split at hafter
  · rw [hbefore] at hafter
    cases hafter
  · split at hafter
    · exact mark_only hbefore hafter
    · exact mark_only hbefore hafter

/-- A job is cancelled by a step that names it. -/
theorem names_of_cancelled {a : BridgeAct} (hstep : s.next a = some s')
    (hbefore : (s.job j).cancelled = false) (hafter : (s'.job j).cancelled = true) :
    s.Names j a := by
  cases a with
  | submit session =>
    simp only [next, Option.ite_none_right_eq_some, Option.some.injEq] at hstep
    obtain ⟨-, rfl⟩ := hstep
    -- a new job is not cancelled
    by_cases hj : j = s.submitted
    · simp [submit, hj] at hafter
    · simp [submit, hj, hbefore] at hafter
  | cancel session =>
    simp only [next, Option.ite_none_right_eq_some, Option.some.injEq] at hstep
    obtain ⟨-, rfl⟩ := hstep
    exact cancel_only hbefore hafter
  | leave i =>
    simp only [next, Option.ite_none_right_eq_some, Option.some.injEq] at hstep
    obtain ⟨-, rfl⟩ := hstep
    exact mark_only hbefore hafter
  | cancel_left i =>
    simp only [next, Option.ite_none_right_eq_some, Option.some.injEq] at hstep
    obtain ⟨-, rfl⟩ := hstep
    exact cancel_only (s := { s with handlers := s.handlers.erase (.left i) }) hbefore hafter
  | cancel_job i =>
    simp only [next, Option.ite_none_right_eq_some, Option.some.injEq] at hstep
    obtain ⟨-, rfl⟩ := hstep
    exact cancel_job_only hbefore hafter
  | start =>
    simp only [next] at hstep
    split at hstep
    · rename_i i rest _ _ _
      obtain rfl := Option.some.inj hstep
      by_cases hji : j = i
      · subst hji
        simp [hbefore] at hafter
      · simp [hji, hbefore] at hafter
    · cases hstep
  | _ =>
    rw [job_kept rfl hstep, hbefore] at hafter
    cases hafter

end Bridge

/-! ### Runs -/

open Bridge

/-- In every run whose cancel lines are `Scoped`, a cancel reaches the turns it names, and these
    only. -/
theorem cancel_isolated {s : Bridge} (h : Reachable (bridge_system.restrict Scoped) s) :
    Isolated s ∧ ∀ a s' j, s.next a = some s' → (s.job j).cancelled = false →
      (s'.job j).cancelled = true → s.Names j a := by
  refine ⟨Inv.toIsolated (h.invariant (P := Inv) ?_ ?_),
    fun a s' j hstep hbefore hafter => names_of_cancelled hstep hbefore hafter⟩
  · rintro s rfl
    exact inv_init
  · rintro s a s' hinv ⟨hstep, hok⟩
    exact hinv.step hok hstep

instance (s : Bridge) (k : Nat) : Decidable (s.Settled k) :=
  inferInstanceAs (Decidable (_ ∨ _))

instance (s : Bridge) (j : Nat) : Decidable (s.Alone j) :=
  inferInstanceAs (Decidable (∀ k ∈ s.generates, _))

instance (s : Bridge) : (a : BridgeAct) → Decidable (s.Scoped a)
  | .send_cancel j => inferInstanceAs (Decidable (s.Alone j))
  | .send_locked => inferInstanceAs (Decidable (∀ j ∈ s.lock, s.Alone j))
  | .check_cancelled =>
    inferInstanceAs (Decidable (∀ j ∈ s.worker.job, (s.job j).cancelled = true → s.Alone j))
  | .submit _ | .cancel _ | .leave _ | .cancel_left _ | .cancel_job _ | .start | .refuse
  | .send_generate | .finish | .stray | .pop_job | .read | .serve _ | .complete _ | .poll =>
    .isTrue trivial

/-- Two sessions; the first one's job is at the engine when `cancel` finds it. -/
def cancel_first : List BridgeAct :=
  [.submit "a", .submit "b", .start, .send_generate, .check_cancelled, .read, .serve false,
    .cancel "a"]

/-- The next job's turn up to its place in the engine. -/
def next_turn : List BridgeAct :=
  [.finish, .pop_job, .start, .send_generate, .check_cancelled]

/-- The line is written at once: it ends its own job's turn. -/
theorem cancel_isolated_prompt :
    ∃ s, Isolated s ∧ s.ended = [(0, .cancel), (1, .stop)] ∧ s.acks = [(0, 1)] := by
  obtain ⟨s, hreach, hs⟩ : ∃ s, Reachable (bridge_system.restrict Scoped) s ∧
      decide (s.ended = [(0, .cancel), (1, .stop)] ∧ s.acks = [(0, 1)]) = true :=
    Reachable.of_guarded next Scoped
      (cancel_first ++ [.send_cancel 0, .read, .poll] ++ next_turn ++
        [.read, .serve false, .complete .stop]) _ rfl (by decide)
  exact ⟨s, (cancel_isolated hreach).1, of_decide_eq_true hs⟩

/-- The line is written when the other session's turn is out: it ends that one. -/
theorem late_cancel_crosses :
    ∃ s, Reachable bridge_system s ∧ ¬ Isolated s ∧ (s.job 0).session = "a" ∧
      (s.job 1).session = "b" ∧ (s.job 1).cancelled = false ∧ (1, .cancel) ∈ s.ended := by
  obtain ⟨s, hreach, hs⟩ : ∃ s, Reachable bridge_system s ∧ decide ((s.job 0).session = "a" ∧
      (s.job 1).session = "b" ∧ (s.job 1).cancelled = false ∧ (1, .cancel) ∈ s.ended) = true :=
    Reachable.of_execute next
      (cancel_first ++ [.complete .stop] ++ next_turn ++
        [.send_cancel 0, .read, .serve false, .read, .poll]) _ rfl (by decide)
  obtain ⟨hfirst, hsecond, hkept, hended⟩ := of_decide_eq_true hs
  refine ⟨s, hreach, fun hisolated => ?_, hfirst, hsecond, hkept, hended⟩
  have hyes := hisolated.ended 1 hended
  rw [hkept] at hyes
  cases hyes

end CachedMoe.Web
