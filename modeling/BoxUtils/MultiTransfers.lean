import BoxUtils.Multi
import Mathlib.Logic.Equiv.Basic

/-!
The transfers that a program has under way. A transfer has an owner, the user data of the
last time it was added, and the multi handle that it is in; its messages are told with its
owner and its user data. A reset of its object takes the user data away. The objects and
the handles of curl simulate the transfers: whatever is moved, copied, reset and destroyed in
between, a message leads to the object that has its handle, and no call meets an object or a
handle that is gone.
-/
namespace BoxUtils.Multi

open Runs Function

/-- The user data is that of the last addition to a multi handle, none before the first one
and after a reset. -/
structure Transfer where
  owner : ℕ
  userdata : Option ℕ
  multi : Option ℕ
  deriving DecidableEq

/-- A transfer that is in no multi handle stays as it is when it leaves none. -/
theorem Transfer.outside_eq (t : Transfer) :
    (if t.multi = none then { t with multi := none } else t) = t := by
  split
  · rename_i hnone
    rw [← hnone]
  · rfl

@[ext]
structure Transfers where
  transfer : ℕ → Option Transfer
  multi : ℕ → Option (Option ℕ)
  queue : ℕ → Option (List CurlMsg)
  got : List Got

namespace Transfers

variable (v : Transfers)

def init : Transfers := ⟨fun _ => none, fun _ => none, fun _ => none, []⟩

/-- A new transfer, which is in no multi handle. -/
def begun (o : ℕ) : Option ℕ → Transfers
  | none => v
  | some h => { v with transfer := update v.transfer h (some ⟨o, none, none⟩) }

def owner (h : ℕ) : Option ℕ := (v.transfer h).map (·.owner)

/-- A change of the transfer of an object. -/
def changed (o : ℕ) (f : Transfer → Transfer) : Transfers :=
  { v with transfer := fun h => (v.transfer h).map fun t => if t.owner = o then f t else t }

/-- The transfer of an object ends, and with it its messages. -/
def ended (o : ℕ) : Transfers :=
  { v with
    transfer := fun h => (v.transfer h).filter fun t => t.owner ≠ o
    queue := fun k => (v.queue k).map (List.filter fun msg => v.owner msg.easyHandle ≠ some o) }

/-- The transfer of an object leaves a multi handle, and its messages leave the queue. -/
def removed (o : ℕ) (k : Option ℕ) : Transfers :=
  { v.changed o fun t => if t.multi = k then { t with multi := none } else t with
    queue := fun i => (v.queue i).map (List.filter fun msg =>
      some i ≠ k ∨ v.owner msg.easyHandle ≠ some o) }

/-- A multi handle is opened, if there is one to be had. -/
def opened (m : ℕ) : Option ℕ → Transfers
  | none => { v with multi := update v.multi m (some none) }
  | some k => { v with
      multi := update v.multi m (some (some k))
      queue := update v.queue k (some []) }

/-- A multi handle is closed; the transfers that were in it go on outside. -/
def closed (m : ℕ) (k : Option ℕ) : Transfers :=
  { v with
    transfer := fun h => (v.transfer h).map fun t =>
      if t.multi = k then { t with multi := none } else t
    multi := update v.multi m none
    queue := fun i => if some i = k then none else v.queue i }

/-- What the first message says of a finished transfer, with the messages behind it. -/
def told (m : ℕ) (queue : List CurlMsg) : Option (Got × List CurlMsg) :=
  match queue.dropWhile (!·.done) with
  | [] => some ((none, 0), [])
  | msg :: rest => (v.transfer msg.easyHandle).map fun t =>
    ((some ⟨m, t.owner, t.userdata, msg.result⟩, rest.length), rest)

def Spec (v : Transfers) (a : Action) (w : Transfers) : Prop :=
  match a with
  | .construct o | .copy o _ => ∃ h, (∀ i ∈ h, v.transfer i = none) ∧ w = v.begun o h
  | .move o src => w = v.changed src fun t => { t with owner := o }
  | .destroy o => w = v.ended o
  | .reset o => w = v.changed o fun t => { t with userdata := none }
  | .constructMulti m => ∃ k, (∀ i ∈ k, v.queue i = none) ∧ w = v.opened m k
  | .moveMulti m src => ∃ k, v.multi src = some k ∧
      w = { v with multi := update (update v.multi m (some k)) src (some none) }
  | .destroyMulti m => ∃ k, v.multi m = some k ∧ w = v.closed m k
  | .addHandle m o userdata => ∃ k, v.multi m = some k ∧
      w = v.changed o fun t => { t with userdata, multi := t.multi.or k }
  | .removeHandle m o => ∃ k, v.multi m = some k ∧ w = v.removed o k
  | .perform m => v.multi m = some none ∧ w = v ∨
      ∃ k queue msgs, v.multi m = some (some k) ∧ v.queue k = some queue ∧
        (∀ msg ∈ msgs, ∃ t, v.transfer msg.easyHandle = some t ∧ t.multi = some k) ∧
        w = { v with queue := update v.queue k (some (queue ++ msgs)) }
  | .getMsg m => v.multi m = some none ∧ w = { v with got := v.got ++ [(none, 0)] } ∨
      ∃ k queue got rest, v.multi m = some (some k) ∧ v.queue k = some queue ∧
        v.told m queue = some (got, rest) ∧
        w = { v with queue := update v.queue k (some rest), got := v.got ++ [got] }

/-- A message is about a transfer that is in its multi handle, and no two objects have the same
multi handle. -/
structure Sound : Prop where
  queued : ∀ k queue, v.queue k = some queue → ∀ msg ∈ queue,
    ∃ t, v.transfer msg.easyHandle = some t ∧ t.multi = some k
  live : ∀ h t k, v.transfer h = some t → t.multi = some k → v.queue k ≠ none
  multiLive : ∀ m k, v.multi m = some (some k) → v.queue k ≠ none
  multiApart : ∀ m n k, v.multi m = some (some k) → v.multi n = some (some k) → m = n

variable {v} {w : Transfers} {a : Action} {o h m : ℕ} {k : Option ℕ} {f : Transfer → Transfer}

theorem Sound.init : Transfers.init.Sound :=
  ⟨by simp [Transfers.init], by simp [Transfers.init], by simp [Transfers.init],
    by simp [Transfers.init]⟩

theorem Sound.begun (hv : v.Sound) {h : Option ℕ} (hfree : ∀ i ∈ h, v.transfer i = none) :
    (v.begun o h).Sound := by
  cases h with
  | none => exact hv
  | some h =>
    have hfree : v.transfer h = none := hfree h rfl
    refine ⟨fun k queue hqueue msg hmsg => ?_, fun i t k ht hk => ?_, hv.multiLive, hv.multiApart⟩
    · obtain ⟨t, ht, hk⟩ := hv.queued k queue hqueue msg hmsg
      have hne : msg.easyHandle ≠ h := by
        intro heq
        rw [heq, hfree] at ht
        cases ht
      exact ⟨t, (update_of_ne hne _ _).trans ht, hk⟩
    · rcases eq_or_ne i h with rfl | hne
      · obtain rfl := Option.some.inj ((update_self i _ _).symm.trans ht)
        cases hk
      · exact hv.live i t k ((update_of_ne hne _ _).symm.trans ht) hk

/-- A change that takes no transfer out of its multi handle, and puts it into one that is
there. -/
theorem Sound.changed (hv : v.Sound) (hstays : ∀ t k, t.multi = some k → (f t).multi = some k)
    (hlive : ∀ t k, (f t).multi = some k → t.multi = some k ∨ v.queue k ≠ none) :
    (v.changed o f).Sound := by
  refine ⟨fun k queue hqueue msg hmsg => ?_, fun h t' k ht' hk => ?_, hv.multiLive, hv.multiApart⟩
  · obtain ⟨t, ht, hk⟩ := hv.queued k queue hqueue msg hmsg
    refine ⟨if t.owner = o then f t else t, by simp [Transfers.changed, ht], ?_⟩
    split
    · exact hstays t k hk
    · exact hk
  · obtain ⟨t, ht, rfl⟩ := Option.map_eq_some_iff.mp ht'
    split at hk
    · rcases hlive t k hk with hk | hqueue
      · exact hv.live h t k ht hk
      · exact hqueue
    · exact hv.live h t k ht hk

theorem Sound.ended (hv : v.Sound) : (v.ended o).Sound := by
  refine ⟨fun k queue' hqueue' msg hmsg => ?_, fun h t k ht hk => ?_, fun m k hm => ?_,
    hv.multiApart⟩
  · obtain ⟨queue, hqueue, rfl⟩ := Option.map_eq_some_iff.mp hqueue'
    obtain ⟨hmsg, howner⟩ := List.mem_filter.mp hmsg
    obtain ⟨t, ht, hk⟩ := hv.queued k queue hqueue msg hmsg
    refine ⟨t, Option.filter_eq_some_iff.mpr ⟨ht, ?_⟩, hk⟩
    simpa [owner, ht] using howner
  · have ht : v.transfer h = some t := (Option.filter_eq_some_iff.mp ht).1
    simpa [Transfers.ended] using hv.live h t k ht hk
  · simpa [Transfers.ended] using hv.multiLive m k hm

theorem Sound.removed (hv : v.Sound) : (v.removed o k).Sound := by
  refine ⟨fun i queue' hqueue' msg hmsg => ?_, fun h t' i ht' hi => ?_, fun m i hm => ?_,
    hv.multiApart⟩
  · obtain ⟨queue, hqueue, rfl⟩ := Option.map_eq_some_iff.mp hqueue'
    obtain ⟨hmsg, howner⟩ := List.mem_filter.mp hmsg
    obtain ⟨t, ht, hi⟩ := hv.queued i queue hqueue msg hmsg
    refine ⟨t, ?_, hi⟩
    have howner : some i ≠ k ∨ t.owner ≠ o := by simpa [owner, ht] using howner
    have hsame :
        (if t.owner = o then if t.multi = k then { t with multi := none } else t else t) = t := by
      rcases howner with hne | hne
      · rw [hi, if_neg hne, ite_self]
      · exact if_neg hne
    simp only [Transfers.removed, Transfers.changed, ht, Option.map_some, hsame]
  · obtain ⟨t, ht, rfl⟩ := Option.map_eq_some_iff.mp ht'
    have hi : t.multi = some i := by
      dsimp only at hi
      split at hi
      · split at hi
        · cases hi
        · exact hi
      · exact hi
    simpa [Transfers.removed] using hv.live h t i ht hi
  · simpa [Transfers.removed] using hv.multiLive m i hm

/-- The `Multi` objects change places. -/
theorem Sound.placed (hv : v.Sound) {multi : ℕ → Option (Option ℕ)} {g : ℕ → ℕ}
    (hg : Injective g)
    (hmulti : ∀ n i, multi n = some (some i) → v.multi (g n) = some (some i)) :
    Sound { v with multi } := by
  refine ⟨hv.queued, hv.live, fun n i hn => ?_, fun n n' i hn hn' => ?_⟩
  · exact hv.multiLive (g n) i (hmulti n i hn)
  · exact hg (hv.multiApart (g n) (g n') i (hmulti n i hn) (hmulti n' i hn'))

theorem Sound.opened (hv : v.Sound) (hfree : ∀ i ∈ k, v.queue i = none) :
    (v.opened m k).Sound := by
  cases k with
  | none =>
    apply hv.placed injective_id
    intro n i hn
    rcases eq_or_ne n m with rfl | hne
    · cases Option.some.inj ((update_self n _ _).symm.trans hn)
    · exact (update_of_ne hne _ _).symm.trans hn
  | some k =>
    have hk : v.queue k = none := hfree k rfl
    show Sound { v with
      multi := update v.multi m (some (some k))
      queue := update v.queue k (some []) }
    have hlive : ∀ i, v.queue i ≠ none → update v.queue k (some []) i ≠ none := by
      intro i hi
      have hne : i ≠ k := fun heq => hi (heq ▸ hk)
      rwa [update_of_ne hne]
    have hold : ∀ n i, v.multi n = some (some i) → i ≠ k :=
      fun n i hn heq => hv.multiLive n i hn (heq ▸ hk)
    refine ⟨fun i queue hqueue msg hmsg => ?_, fun h t i ht hi => hlive i (hv.live h t i ht hi),
      fun n i hn => ?_, fun n n' i hn hn' => ?_⟩
    · rcases eq_or_ne i k with rfl | hne
      · obtain rfl := Option.some.inj ((update_self i _ _).symm.trans hqueue)
        cases hmsg
      · exact hv.queued i queue ((update_of_ne hne _ _).symm.trans hqueue) msg hmsg
    · rcases eq_or_ne n m with rfl | hne
      · obtain rfl : k = i := by simpa using hn
        simp
      · exact hlive i (hv.multiLive n i ((update_of_ne hne _ _).symm.trans hn))
    · have := hold n i
      have := hold n' i
      have := hv.multiApart n n' i
      simp only [update_apply] at hn hn'
      grind

theorem Sound.closed (hv : v.Sound) (hk : v.multi m = some k) : (v.closed m k).Sound := by
  have hqueue (i : ℕ) (hne : some i ≠ k) : (v.closed m k).queue i = v.queue i := if_neg hne
  have hleft : ∀ n i, (v.closed m k).multi n = some (some i) →
      n ≠ m ∧ v.multi n = some (some i) := by
    intro n i hn
    rcases eq_or_ne n m with rfl | hnm
    · cases (update_self n _ _).symm.trans hn
    · exact ⟨hnm, (update_of_ne hnm _ _).symm.trans hn⟩
  refine ⟨fun i queue hi msg hmsg => ?_, fun h t' i ht' hi => ?_, fun n i hn => ?_,
    fun n n' i hn hn' => ?_⟩
  · have hne : some i ≠ k := by
      intro heq
      cases (if_pos heq).symm.trans hi
    obtain ⟨t, ht, hi⟩ := hv.queued i queue ((hqueue i hne).symm.trans hi) msg hmsg
    refine ⟨t, ?_, hi⟩
    simp only [Transfers.closed, ht, Option.map_some, hi, if_neg hne]
  · obtain ⟨t, ht, rfl⟩ := Option.map_eq_some_iff.mp ht'
    split at hi
    · cases hi
    · rename_i hne
      rw [hi] at hne
      rw [hqueue i hne]
      exact hv.live h t i ht hi
  · obtain ⟨hnm, hn⟩ := hleft n i hn
    have hne : some i ≠ k := by
      intro heq
      exact hnm (hv.multiApart n m i hn (heq ▸ hk))
    rw [hqueue i hne]
    exact hv.multiLive n i hn
  · exact hv.multiApart n n' i (hleft n i hn).2 (hleft n' i hn').2

theorem told_rest {queue rest : List CurlMsg} {got : Got} (h : v.told m queue = some (got, rest)) :
    ∀ msg ∈ rest, msg ∈ queue := by
  intro msg hmsg
  have hsuffix := List.dropWhile_suffix (fun msg : CurlMsg => !msg.done) (l := queue)
  unfold told at h
  split at h
  · obtain rfl := congrArg Prod.snd (Option.some.inj h)
    cases hmsg
  · rename_i hdrop
    obtain ⟨t, -, heq⟩ := Option.map_eq_some_iff.mp h
    obtain rfl := congrArg Prod.snd heq
    rw [hdrop] at hsuffix
    exact hsuffix.subset (List.mem_cons_of_mem _ hmsg)

/-- All messages in a queue can be told. -/
theorem Sound.told_some (hv : v.Sound) (m : ℕ) {k : ℕ} {queue : List CurlMsg}
    (hqueue : v.queue k = some queue) : ∃ r, v.told m queue = some r := by
  unfold told
  split
  · exact ⟨_, rfl⟩
  · rename_i msg rest hdrop
    have hsuffix := List.dropWhile_suffix (fun msg : CurlMsg => !msg.done) (l := queue)
    rw [hdrop] at hsuffix
    obtain ⟨t, ht, -⟩ := hv.queued k queue hqueue msg (hsuffix.subset List.mem_cons_self)
    rw [ht]
    exact ⟨_, rfl⟩

/-- A queue gets other messages, which are about transfers in its multi handle. -/
theorem Sound.requeued (hv : v.Sound) {k : ℕ} {queue : List CurlMsg} {got : List Got}
    (hqueued : ∀ msg ∈ queue, ∃ t, v.transfer msg.easyHandle = some t ∧ t.multi = some k) :
    Sound { v with queue := update v.queue k (some queue), got } := by
  have hlive : ∀ i, v.queue i ≠ none → update v.queue k (some queue) i ≠ none := by
    intro i hi
    rcases eq_or_ne i k with rfl | hne
    · simp
    · rwa [update_of_ne hne]
  refine ⟨fun i queue' hqueue' => ?_, fun h t i ht hi => hlive i (hv.live h t i ht hi),
    fun m i hm => hlive i (hv.multiLive m i hm), hv.multiApart⟩
  rcases eq_or_ne i k with rfl | hne
  · obtain rfl := Option.some.inj ((update_self i _ _).symm.trans hqueue')
    exact hqueued
  · exact hv.queued i queue' ((update_of_ne hne _ _).symm.trans hqueue')

theorem Spec.sound (hv : v.Sound) (hspec : Spec v a w) : w.Sound := by
  cases a with
  | construct o | copy o src =>
    obtain ⟨h, hfree, rfl⟩ := hspec
    exact hv.begun hfree
  | move o src =>
    subst hspec
    exact hv.changed (fun t k hk => hk) fun t k hk => .inl hk
  | destroy o =>
    subst hspec
    exact hv.ended
  | reset o =>
    subst hspec
    exact hv.changed (fun t k hk => hk) fun t k hk => .inl hk
  | constructMulti m =>
    obtain ⟨k, hfree, rfl⟩ := hspec
    exact hv.opened hfree
  | moveMulti m src =>
    obtain ⟨k, hk, rfl⟩ := hspec
    apply hv.placed (Equiv.swap m src).injective
    intro n i hn
    rcases eq_or_ne n src with rfl | hsrc
    · cases Option.some.inj ((update_self n _ _).symm.trans hn)
    rw [update_of_ne hsrc] at hn
    rcases eq_or_ne n m with rfl | hm
    · rw [Equiv.swap_apply_left, hk, ← hn, update_self]
    · rw [Equiv.swap_apply_of_ne_of_ne hm hsrc, ← hn, update_of_ne hm]
  | destroyMulti m =>
    obtain ⟨k, hk, rfl⟩ := hspec
    exact hv.closed hk
  | addHandle m o userdata =>
    obtain ⟨k, hk, rfl⟩ := hspec
    refine hv.changed (fun t i hi => ?_) fun t i hi => ?_
    · show t.multi.or k = some i
      rw [hi, Option.some_or]
    · change t.multi.or k = some i at hi
      cases hmulti : t.multi with
      | some j => exact .inl (by rwa [hmulti, Option.some_or] at hi)
      | none =>
        rw [hmulti, Option.none_or] at hi
        exact .inr (hv.multiLive m i (hi ▸ hk))
  | removeHandle m o =>
    obtain ⟨k, hk, rfl⟩ := hspec
    exact hv.removed
  | perform m =>
    obtain ⟨-, rfl⟩ | ⟨k, queue, msgs, -, hqueue, hmsgs, rfl⟩ := hspec
    · exact hv
    · apply hv.requeued
      intro msg hmsg
      rcases List.mem_append.mp hmsg with hmsg | hmsg
      · exact hv.queued k queue hqueue msg hmsg
      · exact hmsgs msg hmsg
  | getMsg m =>
    obtain ⟨-, rfl⟩ | ⟨k, queue, got, rest, hm, hqueue, htold, rfl⟩ := hspec
    · exact ⟨hv.queued, hv.live, hv.multiLive, hv.multiApart⟩
    · apply hv.requeued
      intro msg hmsg
      exact hv.queued k queue hqueue msg (told_rest htold msg hmsg)

section Sole

variable {t : Transfer} {i : ℕ} {queue : List CurlMsg}

/-- The object has this transfer and no other. -/
def Sole (v : Transfers) (o h : ℕ) (t : Transfer) : Prop :=
  v.transfer h = some t ∧ ∀ i, v.owner i = some o ↔ i = h

def Lacks (v : Transfers) (o : ℕ) : Prop := ∀ h, v.owner h ≠ some o

theorem Lacks.owner_ne (hl : v.Lacks o) (ht : v.transfer h = some t) : t.owner ≠ o := by
  intro heq
  apply hl h
  rw [owner, ht, Option.map_some, heq]

theorem Sole.owner_eq (hs : v.Sole o h t) : t.owner = o := by
  have howner := (hs.2 h).mpr rfl
  rw [owner, hs.1] at howner
  exact Option.some.inj howner

theorem Sole.owner_ne (hs : v.Sole o h t) {t' : Transfer} (hne : i ≠ h)
    (ht' : v.transfer i = some t') : t'.owner ≠ o := by
  intro heq
  apply hne
  apply (hs.2 i).mp
  rw [owner, ht', Option.map_some, heq]

theorem Lacks.changed_eq (hl : v.Lacks o) : v.changed o f = v := by
  ext1 <;> try rfl
  funext h
  cases ht : v.transfer h with
  | none => simp only [Transfers.changed, ht, Option.map_none]
  | some t => simp only [Transfers.changed, ht, Option.map_some, if_neg (hl.owner_ne ht)]

theorem Lacks.ended_eq (hl : v.Lacks o) : v.ended o = v := by
  ext1 <;> try rfl
  · funext h
    cases ht : v.transfer h with
    | none => simp only [Transfers.ended, ht, Option.filter_none]
    | some t =>
      have hne : t.owner ≠ o := hl.owner_ne ht
      simp only [Transfers.ended, ht, Option.filter_some, hne, ne_eq, not_false_eq_true,
        decide_true, if_true]
  · funext k
    cases hqueue : v.queue k with
    | none => simp only [Transfers.ended, hqueue, Option.map_none]
    | some queue =>
      have hall : queue.filter (fun msg => v.owner msg.easyHandle ≠ some o) = queue :=
        List.filter_eq_self.mpr fun msg hmsg => decide_eq_true (hl msg.easyHandle)
      simp only [Transfers.ended, hqueue, Option.map_some, hall]

theorem Lacks.removed_eq (hl : v.Lacks o) : v.removed o k = v := by
  ext1 <;> try rfl
  · show (v.changed o _).transfer = v.transfer
    rw [hl.changed_eq]
  · funext i
    cases hqueue : v.queue i with
    | none => simp only [Transfers.removed, hqueue, Option.map_none]
    | some queue =>
      have hall : queue.filter (fun msg => some i ≠ k ∨ v.owner msg.easyHandle ≠ some o) = queue :=
        List.filter_eq_self.mpr fun msg hmsg => decide_eq_true (.inr (hl msg.easyHandle))
      simp only [Transfers.removed, hqueue, Option.map_some, hall]

theorem Sole.changed_eq (hs : v.Sole o h t) :
    v.changed o f = { v with transfer := update v.transfer h (some (f t)) } := by
  ext1 <;> try rfl
  funext i
  rcases eq_or_ne i h with rfl | hne
  · simp only [Transfers.changed, hs.1, Option.map_some, if_pos hs.owner_eq, update_self]
  · dsimp only
    rw [update_of_ne hne]
    cases ht' : v.transfer i with
    | none => simp only [Transfers.changed, ht', Option.map_none]
    | some t' =>
      simp only [Transfers.changed, ht', Option.map_some, if_neg (hs.owner_ne hne ht')]

/-- There are no messages about a transfer in a queue other than that of its multi handle. -/
theorem Sound.filter_eq (hv : v.Sound) (ht : v.transfer h = some t) (hi : t.multi ≠ some i)
    (hqueue : v.queue i = some queue) :
    queue.filter (fun msg => msg.easyHandle ≠ h) = queue := by
  apply List.filter_eq_self.mpr
  intro msg hmsg
  apply decide_eq_true
  intro heq
  obtain ⟨t', ht', hi'⟩ := hv.queued i queue hqueue msg hmsg
  rw [heq, ht] at ht'
  obtain rfl := Option.some.inj ht'
  exact hi hi'

theorem Sole.filter_eq (hs : v.Sole o h t) :
    queue.filter (fun msg => v.owner msg.easyHandle ≠ some o) =
      queue.filter fun msg => msg.easyHandle ≠ h := by
  simp only [ne_eq, hs.2]

theorem Sole.ended_transfer (hs : v.Sole o h t) :
    (v.ended o).transfer = update v.transfer h none := by
  funext i
  rcases eq_or_ne i h with rfl | hne
  · simp only [Transfers.ended, hs.1, Option.filter_some, hs.owner_eq, ne_eq, not_true_eq_false,
      decide_false, Bool.false_eq_true, if_false, update_self]
  · rw [update_of_ne hne]
    cases ht' : v.transfer i with
    | none => simp only [Transfers.ended, ht', Option.filter_none]
    | some t' =>
      have hne' : t'.owner ≠ o := hs.owner_ne hne ht'
      simp only [Transfers.ended, ht', Option.filter_some, hne', ne_eq, not_false_eq_true,
        decide_true, if_true]

/-- The messages of a transfer are only in the queue of its multi handle. -/
theorem Sole.ended_queue (hs : v.Sole o h t) (hv : v.Sound) :
    (v.ended o).queue = fun i => if t.multi = some i then
      (v.queue i).map (List.filter fun msg => msg.easyHandle ≠ h) else v.queue i := by
  funext i
  cases hqueue : v.queue i with
  | none => simp only [Transfers.ended, hqueue, Option.map_none, ite_self]
  | some queue =>
    simp only [Transfers.ended, hqueue, Option.map_some, hs.filter_eq]
    split
    · rfl
    · rename_i hi
      rw [hv.filter_eq hs.1 hi hqueue]

/-- A transfer leaves the multi handle that it is in. -/
theorem Sole.removed_eq (hs : v.Sole o h t) (hi : t.multi = some i)
    (hqueue : v.queue i = some queue) :
    v.removed o (some i) = { v with
      transfer := update v.transfer h (some { t with multi := none })
      queue := update v.queue i (some (queue.filter fun msg => msg.easyHandle ≠ h)) } := by
  ext1 <;> try rfl
  · show (v.changed o _).transfer = _
    rw [hs.changed_eq, if_pos hi]
  · funext j
    rcases eq_or_ne j i with rfl | hne
    · dsimp only
      rw [update_self]
      simp only [Transfers.removed, hqueue, Option.map_some, ne_eq, not_true_eq_false, false_or,
        hs.2]
    · dsimp only
      rw [update_of_ne hne]
      have hall (msg : CurlMsg) :
          decide (some j ≠ some i ∨ v.owner msg.easyHandle ≠ some o) = true :=
        decide_eq_true (.inl fun heq => hne (Option.some.inj heq))
      cases hj : v.queue j with
      | none => simp only [Transfers.removed, hj, Option.map_none]
      | some queue => simp only [Transfers.removed, hj, Option.map_some, hall, List.filter_true]

/-- Nothing happens to a transfer that is not in the multi handle. -/
theorem Sole.removed_eq_self (hs : v.Sole o h t) (hv : v.Sound) (hk : t.multi ≠ k) :
    v.removed o k = v := by
  ext1 <;> try rfl
  · show (v.changed o _).transfer = _
    rw [hs.changed_eq, if_neg hk, ← hs.1, update_eq_self]
  · funext j
    cases hqueue : v.queue j with
    | none => simp only [Transfers.removed, hqueue, Option.map_none]
    | some queue =>
      have hall :
          queue.filter (fun msg => some j ≠ k ∨ v.owner msg.easyHandle ≠ some o) = queue := by
        apply List.filter_eq_self.mpr
        intro msg hmsg
        apply decide_eq_true
        by_contra hnot
        obtain ⟨hj, howner⟩ := not_or.mp hnot
        obtain ⟨t', ht', hj'⟩ := hv.queued j queue hqueue msg hmsg
        have heq : msg.easyHandle = h := (hs.2 _).mp (not_not.mp howner)
        rw [heq, hs.1] at ht'
        obtain rfl := Option.some.inj ht'
        exact hk (hj'.trans (not_not.mp hj))
      simp only [Transfers.removed, hqueue, Option.map_some, hall]

/-- A transfer outside all multi handles is not removed from any. -/
theorem removed_none : v.removed o none = v := by
  ext1 <;> try rfl
  · funext h
    cases ht : v.transfer h with
    | none => simp only [Transfers.removed, Transfers.changed, ht, Option.map_none]
    | some t =>
      simp only [Transfers.removed, Transfers.changed, ht, Option.map_some, t.outside_eq, ite_self]
  · funext j
    cases hqueue : v.queue j with
    | none => simp only [Transfers.removed, hqueue, Option.map_none]
    | some queue =>
      simp only [Transfers.removed, hqueue, Option.map_some, ne_eq, reduceCtorEq,
        not_false_eq_true, true_or, decide_true, List.filter_true]

end Sole

end Transfers

end BoxUtils.Multi
