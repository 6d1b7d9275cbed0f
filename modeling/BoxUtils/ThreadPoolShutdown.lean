import Mathlib.Data.Finset.Card
import BoxUtils.ThreadPoolSteps

/-!
The broadcast of the destructor of a thread pool. A worker tests its running
flag before it inspects the queue, and blocks afterwards without testing it
again: where it stands between the two when the destructor broadcasts decides
whether the join of its thread comes to an end.
-/
namespace BoxUtils.ThreadPool

open Runs

/-- The worker can come to be blocked. -/
def CanBlock (s : State) (w : ℕ) : Prop :=
  ∃ as t, run next s as = some t ∧ (t.worker w).pc = .blocked

/-- No worker that the destructor is joining or has still to join can come to be
blocked, now that the broadcast is over. -/
def JoinsEnd (s : State) : Prop := ∀ rest, s.dtor = .joining rest → ∀ w ∈ rest, ¬ CanBlock s w

/-- The worker has seen the empty queue and is to block, or is blocked. -/
def WorkerPc.Sleeping (pc : WorkerPc) : Prop := pc = .setting ∨ pc = .sleepy ∨ pc = .blocked

/-- The workers that have passed the test of the flag and have not seen the queue yet. -/
def State.inspecting (s : State) : Finset ℕ :=
  s.started.filter fun w => (s.worker w).pc = .inspect

/-- At the broadcast no worker is on its way to block, and there is a task in the queue
for each that is about to inspect it. -/
def BroadcastReaches (s : State) : Action → Prop
  | .destroy => s.dtor = .stopping [] →
      (∀ w ∈ s.started, (s.worker w).pc ≠ .setting ∧ (s.worker w).pc ≠ .sleepy) ∧
        s.inspecting.card ≤ s.tasks.length
  | _ => True

section Blocking

variable {s t : State} {w : ℕ}

theorem CanBlock.step {a : Action} (h : next s a = some t) (ht : CanBlock t w) :
    CanBlock s w := by
  obtain ⟨as, u, hrun, hpc⟩ := ht
  refine ⟨a :: as, u, ?_, hpc⟩
  simp [run, h, hrun]

/-- A worker in the branch of the empty queue can go on until it blocks. -/
theorem canBlock_of_sleeping (hw : w ∈ s.started) (h : (s.worker w).pc.Sleeping) :
    CanBlock s w := by
  have hsleepy : ∀ s : State, w ∈ s.started → (s.worker w).pc = .sleepy → CanBlock s w := by
    intro s hw hpc
    refine ⟨[.work w], s.moveWorker w .blocked, ?_, ?_⟩
    · simp [run, next, hw, State.work, hpc]
    · simp [State.moveWorker, State.setWorker]
  rcases h with hpc | hpc | hpc
  · have hstep : next s (.work w) = some (s.setEvent.moveWorker w .sleepy) := by
      simp [next, hw, State.work, hpc]
    have hworks := works_of_work (s := s) (w := w) (t := s.setEvent.moveWorker w .sleepy)
      (by simp [State.work, hpc])
    apply CanBlock.step hstep
    apply hsleepy _ (hworks.started ▸ hw)
    simp [State.moveWorker, State.setWorker]
  · exact hsleepy s hw hpc
  · exact ⟨[], s, rfl, hpc⟩

theorem canBlock_of_inspect (hw : w ∈ s.started) (hpc : (s.worker w).pc = .inspect)
    (htasks : s.tasks = []) : CanBlock s w := by
  have hstep : next s (.work w) = some (s.moveWorker w .setting) := by
    simp [next, hw, State.work, hpc, htasks]
  apply CanBlock.step hstep
  apply canBlock_of_sleeping (s := s.moveWorker w .setting) hw
  left
  simp [State.moveWorker, State.setWorker]

theorem mem_inspecting {v : ℕ} :
    v ∈ s.inspecting ↔ v ∈ s.started ∧ (s.worker v).pc = .inspect := Finset.mem_filter

/-- The other inspecting workers can take all tasks before this one sees the queue. -/
theorem canBlock_of_unfed (hw : w ∈ s.inspecting) (hfew : s.tasks.length < s.inspecting.card) :
    CanBlock s w := by
  generalize hn : s.tasks.length = n
  induction n generalizing s with
  | zero =>
    obtain ⟨hstarted, hpc⟩ := mem_inspecting.mp hw
    exact canBlock_of_inspect hstarted hpc (List.length_eq_zero_iff.mp hn)
  | succ n ih =>
    obtain ⟨v, hv, hvw⟩ : ∃ v ∈ s.inspecting, v ≠ w := by
      apply Finset.exists_mem_ne
      omega
    obtain ⟨hstarted, hpc⟩ := mem_inspecting.mp hv
    obtain ⟨e, rest, htasks⟩ := List.exists_cons_of_length_eq_add_one hn
    have hstep : next s (.work v) = some { s.moveWorker v (.claimed e) with tasks := rest } := by
      simp [next, hstarted, State.work, hpc, htasks]
    -- one task and one inspecting worker are gone
    have hinspecting : State.inspecting { s.moveWorker v (.claimed e) with tasks := rest } =
        s.inspecting.erase v := by
      ext u
      rw [Finset.mem_erase, mem_inspecting, mem_inspecting]
      by_cases hu : u = v
      · subst hu
        simp [State.moveWorker, State.setWorker]
      · simp [State.moveWorker, State.setWorker, hu]
    have hrest : rest.length = n := by
      rw [htasks, List.length_cons] at hn
      omega
    apply CanBlock.step hstep
    apply ih
    · rw [hinspecting]
      exact Finset.mem_erase.mpr ⟨hvw.symm, hw⟩
    · rw [hinspecting, Finset.card_erase_of_mem hv]
      simp only
      omega
    · exact hrest

end Blocking

section Stopping

/-- The workers whose flag the destructor has still to clear, once it has begun. -/
def DtorPc.unstopped : DtorPc → Option (List ℕ)
  | .stopping rest => some rest
  | .joining _ | .clearing | .returned => some []
  | _ => none

/-- The flags of all workers but those are cleared. -/
def Halted (s : State) : Prop :=
  ∀ rest, s.dtor.unstopped = some rest →
    ∀ w ∈ s.workers, w ∈ rest ∨ (s.worker w).running = false

variable {s t : State} {a : Action} {x y : Worker}

theorem Worker.Changed.halted (h : x.Changed y) (hx : x.running = false) :
    y.running = false := by
  cases h with
  | same => exact hx
  | woken => exact hx
  | stopped => rfl
  | deleted => exact hx

theorem next_halted (h : next s a = some t) {w : ℕ} (hw : (s.worker w).running = false) :
    (t.worker w).running = false := by
  rcases next_worker h w with ⟨-, hworks⟩ | hchanged
  · rw [(Worker.step_flags hworks.own).1, hw]
  · exact hchanged.halted hw

theorem DtorPc.unstopped_notified (pc : DtorPc) : pc.notified.unstopped = pc.unstopped := by
  cases pc <;> rfl

theorem next_unstopped {rest : List ℕ} (h : next s a = some t)
    (hrest : t.dtor.unstopped = some rest) :
    s.dtor.unstopped = some rest ∨ rest = s.workers ∨
      ∃ w, s.dtor.unstopped = some (w :: rest) ∧ (t.worker w).running = false := by
  rcases next_dtor h with hsame | hnotified | ⟨-, hdestroy⟩
  · exact Or.inl (hsame ▸ hrest)
  · rw [hnotified, DtorPc.unstopped_notified] at hrest
    exact Or.inl hrest
  · cases hdestroy with
    | lock => exact Or.inr (Or.inl (Option.some.inj hrest).symm)
    | stop w rest' hdtor =>
      cases hrest
      exact Or.inr (Or.inr ⟨w, by rw [hdtor]; rfl, by simp [State.setWorker]⟩)
    | broadcast hdtor | join w rest' hdtor | joined hdtor | clear hdtor =>
      exact Or.inl (by rw [hdtor]; exact hrest)
    | begin | wait => cases hrest

theorem Halted.next (hs : Halted s) (h : next s a = some t) : Halted t := by
  intro rest hrest w hw
  rw [(next_frame h).1] at hw
  rcases next_unstopped h hrest with hsame | rfl | ⟨v, hmore, hstopped⟩
  · exact (hs rest hsame w hw).imp id (next_halted h)
  · exact Or.inl hw
  · rcases hs (v :: rest) hmore w hw with hmem | hhalted
    · rcases List.mem_cons.mp hmem with rfl | hmem
      · exact Or.inr hstopped
      · exact Or.inl hmem
    · exact Or.inr (next_halted h hhalted)

end Stopping

section Settled

variable {s t : State} {a : Action} {x y : Worker} {tasks : List StartEntry}

/-- Nobody is in the branch of the empty queue, and nobody will get there. -/
structure Settled (s : State) : Prop where
  awake : ∀ w ∈ s.started, ¬ (s.worker w).pc.Sleeping
  fed : s.inspecting.card ≤ s.tasks.length

/-- A worker that is to stop leaves for good, unless it finds the queue empty. -/
theorem Worker.step_stopped (h : x.step tasks = some y) (hstop : x.running = false)
    (hawake : ¬ x.pc.Sleeping) (hfed : x.pc = .inspect → tasks ≠ []) :
    ¬ y.pc.Sleeping ∧ y.pc ≠ .inspect := by
  cases Worker.steps_of_step h with
  | goOn _ hrunning => cases hrunning.symm.trans hstop
  | findNone hpc htasks => exact absurd htasks (hfed hpc)
  | set hpc => exact absurd (Or.inl hpc) hawake
  | block hpc => exact absurd (Or.inr (Or.inl hpc)) hawake
  | stop _ _ | claim _ _ _ _ | begin _ _ | invoke _ _ | finish _ | delete _ _ | leave _ _ =>
    simp [WorkerPc.Sleeping]

theorem Worker.Changed.awake (h : x.Changed y) (hx : ¬ x.pc.Sleeping) : y.pc = x.pc := by
  cases h with
  | woken hpc => exact absurd (Or.inr (Or.inr hpc)) hx
  | same => rfl
  | stopped => rfl
  | deleted => rfl

theorem Settled.changed (hs : Settled s) (hstarted : t.started = s.started)
    (hchanged : ∀ v, (s.worker v).Changed (t.worker v))
    (hfed : s.inspecting.card ≤ t.tasks.length) : Settled t := by
  have hpc : ∀ w ∈ s.started, (t.worker w).pc = (s.worker w).pc := by
    intro w hw
    exact (hchanged w).awake (hs.awake w hw)
  constructor
  · intro w hw
    rw [hstarted] at hw
    rw [hpc w hw]
    exact hs.awake w hw
  · have hsame : t.inspecting = s.inspecting := by
      unfold State.inspecting
      rw [hstarted]
      apply Finset.filter_congr
      intro w hw
      rw [hpc w hw]
    rw [hsame]
    exact hfed

theorem Settled.works {w : ℕ} (hs : Settled s) (hw : w ∈ s.started)
    (hstop : (s.worker w).running = false) (h : Works s w t) : Settled t := by
  have hfed : (s.worker w).pc = .inspect → s.tasks ≠ [] := by
    intro hpc hnil
    have hmem : w ∈ s.inspecting := mem_inspecting.mpr ⟨hw, hpc⟩
    have hcard := Finset.card_pos.mpr ⟨w, hmem⟩
    have hle := hs.fed
    rw [hnil, List.length_nil] at hle
    omega
  obtain ⟨hawake, hinspect⟩ := Worker.step_stopped h.own hstop (hs.awake w hw) hfed
  constructor
  · intro v hv
    rw [h.started] at hv
    by_cases hvw : v = w
    · subst hvw
      exact hawake
    · rw [h.others v hvw]
      exact hs.awake v hv
  · -- the worker itself does not inspect any more
    have hsubset : t.inspecting ⊆ s.inspecting.erase w := by
      intro v hv
      obtain ⟨hstarted, hpc⟩ := mem_inspecting.mp hv
      have hvw : v ≠ w := by
        intro heq
        subst heq
        exact hinspect hpc
      rw [h.others v hvw] at hpc
      exact Finset.mem_erase.mpr ⟨hvw, mem_inspecting.mpr ⟨h.started ▸ hstarted, hpc⟩⟩
    have hcard := Finset.card_le_card hsubset
    have hle := hs.fed
    rw [h.tasks]
    split
    case isTrue hpc =>
      have hmem : w ∈ s.inspecting := mem_inspecting.mpr ⟨hw, hpc⟩
      rw [Finset.card_erase_of_mem hmem] at hcard
      rw [List.length_tail]
      omega
    case isFalse => exact hcard.trans (Finset.card_erase_le.trans hle)

/-- The destructor after its broadcast. -/
def State.broadcast (s : State) : State := { s.notifyAll with dtor := .joining s.workers }

theorem inspecting_broadcast (s : State) : s.broadcast.inspecting = s.inspecting := by
  apply Finset.filter_congr
  intro w _
  change (s.worker w).pc.notified = .inspect ↔ _
  cases (s.worker w).pc <;> simp [WorkerPc.notified]

/-- The broadcast wakes those who are blocked; the others are as the condition has them. -/
theorem settled_broadcast (hreach : BroadcastReaches s .destroy) (hdtor : s.dtor = .stopping []) :
    Settled s.broadcast := by
  obtain ⟨hawake, hfed⟩ := hreach hdtor
  constructor
  · intro w hw hsleep
    obtain ⟨hsetting, hsleepy⟩ := hawake w hw
    change (s.worker w).pc.notified.Sleeping at hsleep
    cases hpc : (s.worker w).pc <;>
      simp_all [WorkerPc.notified, WorkerPc.Sleeping]
  · rw [inspecting_broadcast]
    exact hfed

end Settled

section Closing

variable {s t : State} {a : Action}

/-- What holds of the destructor in every run. -/
structure Closing (s : State) : Prop where
  listed : ∀ w, w ∈ s.workers ↔ w ∈ s.started
  joins : ∀ rest, s.dtor.remaining = some rest → ∀ w ∈ rest, w ∈ s.workers
  joined : Joined s
  halted : Halted s

theorem closing_init (n : ℕ) : Closing (init n) := by
  constructor
  · intro w
    simp [init]
  · intro rest hrest
    cases hrest
  · exact joinedAll_of_idle rfl
  · intro rest hrest
    cases hrest

theorem Closing.next (hs : Closing s) (h : next s a = some t) : Closing t := by
  constructor
  · obtain ⟨hworkers, hstarted⟩ := next_frame h
    rw [hworkers, hstarted]
    exact hs.listed
  · intro rest hrest w hw
    rw [(next_frame h).1]
    rcases next_remaining h hrest with hsame | ⟨-, rfl⟩ | ⟨v, hmore, -⟩
    · exact hs.joins rest hsame w hw
    · exact hw
    · exact hs.joins (v :: rest) hmore w (List.mem_cons_of_mem v hw)
  · exact hs.joined.next h
  · exact hs.halted.next h

/-- The broadcast is over. -/
def Past (s : State) : Prop := s.dtor.remaining.isSome

theorem Past.next (hs : Past s) (h : next s a = some t) : Past t := by
  unfold Past at hs ⊢
  rcases next_dtor h with hsame | hnotified | ⟨-, hdestroy⟩
  · rwa [hsame]
  · rwa [hnotified, DtorPc.remaining_notified]
  · cases hdestroy with
    | join | joined | clear => rfl
    | begin hdtor | wait pc pc' hdtor | lock hdtor | stop w rest hdtor | broadcast hdtor =>
      rw [hdtor] at hs
      cases hs

theorem Past.halted (hpast : Past s) (hs : Closing s) {w : ℕ} (hw : w ∈ s.started) :
    (s.worker w).running = false := by
  have hunstopped : s.dtor.unstopped = some [] := by
    unfold Past at hpast
    cases hdtor : s.dtor with
    | joining rest => rfl
    | clearing => rfl
    | returned => rfl
    | idle | waiting | stopping => simp [hdtor, DtorPc.remaining] at hpast
  rcases hs.halted [] hunstopped w ((hs.listed w).mpr hw) with hmem | hrun
  · cases hmem
  · exact hrun

/-- Once all workers are awake after the broadcast, they stay so. -/
theorem Settled.next (hset : Settled s) (hpast : Past s) (hs : Closing s)
    (h : next s a = some t) : Settled t := by
  rcases next_cases h with ⟨hidle, -⟩ | ⟨w, hw, rfl, hworks⟩ | ⟨-, hdestroy⟩ | haside
  · unfold Past at hpast
    rw [hidle] at hpast
    cases hpast
  · exact hset.works hw (hpast.halted hs hw) hworks
  · obtain ⟨-, -, -, hstarted, -, htasks⟩ := hdestroy.frame
    apply hset.changed hstarted hdestroy.changed
    rcases htasks with htasks | ⟨hclear, htasks⟩
    · rw [htasks]
      exact hset.fed
    · -- all workers have been joined when the queue is cleared
      have hnone : s.inspecting = ∅ := by
        rw [Finset.eq_empty_iff_forall_notMem]
        intro w hmem
        obtain ⟨hw, hpc⟩ := mem_inspecting.mp hmem
        rcases hs.joined [] (by rw [hclear]; rfl) w ((hs.listed w).mpr hw) with hrest | hexit
        · cases hrest
        · simp [hpc] at hexit
      rw [hnone, Finset.card_empty]
      exact Nat.zero_le _
  · apply hset.changed haside.started haside.changed
    rw [haside.tasks]
    exact hset.fed

/-- Then no worker can come to be blocked. -/
theorem Settled.not_canBlock (hset : Settled s) (hpast : Past s) (hs : Closing s) {w : ℕ}
    (hw : w ∈ s.started) : ¬ CanBlock s w := by
  intro ⟨as, u, hrun, hblocked⟩
  have hkeeps := run_keeps (I := fun s => Closing s ∧ Past s ∧ Settled s ∧ w ∈ s.started)
    (fun s a t hI h => ⟨hI.1.next h, hI.2.1.next h, hI.2.2.1.next hI.2.1 hI.1 h,
      (next_frame h).2 ▸ hI.2.2.2⟩) ⟨hs, hpast, hset, hw⟩ hrun
  exact hkeeps.2.2.1.awake w hkeeps.2.2.2 (Or.inr (Or.inr hblocked))

end Closing

section Exactness

variable {s t : State} {a : Action}

/-- The broadcast is the only step that begins to join. -/
theorem broadcast_cases (h : next s a = some t) (hnot : ¬ Past s) (hpast : Past t) :
    a = .destroy ∧ s.dtor = .stopping [] ∧ t = s.broadcast := by
  obtain ⟨rest, hrest⟩ := Option.isSome_iff_exists.mp hpast
  have hnone : ∀ rest, s.dtor.remaining ≠ some rest := by
    intro rest heq
    exact hnot (by rw [Past, heq]; rfl)
  rcases next_remaining h hrest with hsame | ⟨hdtor, rfl⟩ | ⟨w, hmore, -⟩
  · exact absurd hsame (hnone _)
  · rcases next_cases h with ⟨hidle, -⟩ | ⟨w, -, rfl, hworks⟩ | ⟨ha, hdestroy⟩ | haside
    · simp [hdtor] at hidle
    · simp [hworks.dtor, hdtor, DtorPc.notified, DtorPc.remaining] at hrest
    · refine ⟨ha, hdtor, ?_⟩
      cases hdestroy <;> simp_all [State.broadcast]
    · simp [haside.dtor, hdtor, DtorPc.remaining] at hrest
  · exact absurd hmore (hnone _)

/-- The invariant of runs that meet the condition. -/
def Shutting (s : State) : Prop := Closing s ∧ (Past s → Settled s)

theorem shutting_init (n : ℕ) : Shutting (init n) :=
  ⟨closing_init n, fun h => absurd h (by simp [Past, init, DtorPc.remaining])⟩

theorem Shutting.joinsEnd (h : Shutting s) : JoinsEnd s := by
  obtain ⟨hs, hsettled⟩ := h
  intro rest hdtor w hw
  have hpast : Past s := by
    unfold Past
    rw [hdtor]
    rfl
  have hlisted := hs.joins rest (by rw [hdtor]; rfl) w hw
  exact (hsettled hpast).not_canBlock hpast hs ((hs.listed w).mp hlisted)

theorem Shutting.next (hs : Shutting s) (hreach : BroadcastReaches s a)
    (h : next s a = some t) : Shutting t := by
  refine ⟨hs.1.next h, fun hpast => ?_⟩
  by_cases hbefore : Past s
  · exact (hs.2 hbefore).next hbefore hs.1 h
  · obtain ⟨rfl, hdtor, rfl⟩ := broadcast_cases h hbefore hpast
    exact settled_broadcast hreach hdtor

/-- A broadcast outside the condition leaves a worker to join that can still block. -/
theorem not_joinsEnd (hs : Closing s) (h : next s a = some t) (hreach : ¬ BroadcastReaches s a) :
    ¬ JoinsEnd t := by
  cases a with
  | destroy =>
    unfold BroadcastReaches at hreach
    push Not at hreach
    obtain ⟨hdtor, hbad⟩ := hreach
    have ht : t = s.broadcast := by
      simp only [ThreadPool.next, State.destroy, hdtor, Option.some.injEq] at h
      exact h.symm
    subst ht
    intro hends
    have hnone : ∀ w ∈ s.started, ¬ CanBlock s.broadcast w := by
      intro w hw
      exact hends s.workers rfl w ((hs.listed w).mpr hw)
    have hfew : s.tasks.length < s.inspecting.card := by
      apply hbad
      intro w hw
      -- the broadcast does not reach a worker that is on its way to block
      refine ⟨fun hpc => hnone w hw ?_, fun hpc => hnone w hw ?_⟩
      · apply canBlock_of_sleeping (s := s.broadcast) hw
        left
        change (s.worker w).pc.notified = .setting
        rw [hpc]
        rfl
      · apply canBlock_of_sleeping (s := s.broadcast) hw
        right
        left
        change (s.worker w).pc.notified = .sleepy
        rw [hpc]
        rfl
    have hpos : 0 < s.inspecting.card := by omega
    obtain ⟨w, hw⟩ := Finset.card_pos.mp hpos
    apply hnone w (mem_inspecting.mp hw).1
    apply canBlock_of_unfed
    · rw [inspecting_broadcast]
      exact hw
    · rw [inspecting_broadcast]
      exact hfew
  | _ => exact absurd trivial hreach

end Exactness

/-- The join of the workers comes to an end in every continuation of a run if and only
if the broadcast reaches every worker in time. -/
theorem joinsEnd_iff (n : ℕ) (as : List Action) :
    Throughout next JoinsEnd (init n) as ↔ StepsMeet next BroadcastReaches (init n) as := by
  apply throughout_iff_stepsMeet (I := Shutting) _ _ _ (shutting_init n)
  · intro s a t hs hreach h
    exact hs.next hreach h
  · intro s hs
    exact hs.joinsEnd
  · intro s a t hs h hreach
    exact not_joinsEnd hs.1 h hreach

/-- The only worker has seen the empty queue when the destructor broadcasts. -/
def hangingTrace : List Action := [.work 0, .work 0] ++ List.replicate 5 .destroy

theorem join_hangs :
    ¬ ∀ (n : ℕ) (as : List Action), (∀ a ∈ as, a = .destroy ∨ ∃ w, a = .work w) →
      Throughout next JoinsEnd (init n) as := by
  intro h
  have hall := h 1 hangingTrace (by simp [hangingTrace])
  have hlast : ∃ s, run next (init 1) hangingTrace = some s ∧
      s.dtor = .joining [0] ∧ 0 ∈ s.started ∧ (s.worker 0).pc = .setting :=
    ⟨_, rfl, by decide, by decide, by decide⟩
  obtain ⟨s, hs, hdtor, hstarted, hpc⟩ := hlast
  exact hall.final hs [0] hdtor 0 (by simp) (canBlock_of_sleeping hstarted (Or.inl hpc))

end BoxUtils.ThreadPool
