import BoxUtils.Runs
import Mathlib.Data.Int.Notation
import Mathlib.Data.List.Induction
import Mathlib.Data.Nat.Notation

/-!
Calls of `Socket::set_nonblock` on the flag word of a descriptor. To set the mode the flag
is or-ed to the word, to unset it the word is xor-ed with it: such a call flips the flag.
-/
namespace BoxUtils.SocketFlags

open Runs

abbrev Word := BitVec 32

def oNonblock : Word := 0o4000

/-- A call, and what the system has to say to it. -/
structure Call where
  val : Bool
  getFails : Bool
  setFails : Bool
  /-- What `GetErrorCode` reads, if it does. -/
  errorCode : ℤ
  deriving DecidableEq, Repr

section Source

/-- `F_SETFL` can change O_APPEND, O_NONBLOCK, O_ASYNC, O_DIRECT and O_NOATIME only. -/
def settable : Word := 0o2000 ||| oNonblock ||| 0o20000 ||| 0o40000 ||| 0o1000000

/-- `fcntl(fd, F_GETFL, 0)`. -/
def fcntlGet (word : Word) (fails : Bool) : Word := if fails then -1 else word

/-- The word after an `fcntl(fd, F_SETFL, flags)` that does not fail. -/
def fcntlSet (word flags : Word) : Word := (word &&& ~~~settable) ||| (flags &&& settable)

/-- The new word, or the code of the `SocketError`. -/
def setNonblock (word : Word) (c : Call) : Except ℤ Word :=
  let flags := fcntlGet word c.getFails
  if flags.toInt < 0 then .error c.errorCode
  else
    let flags := if c.val then flags ||| oNonblock else flags ^^^ oNonblock
    if c.setFails then .error c.errorCode else .ok (fcntlSet word flags)

/-- A call that succeeds. -/
def next (word : Word) (c : Call) : Option Word := (setNonblock word c).toOption

end Source

def Nonblocking (word : Word) : Prop := word &&& oNonblock ≠ 0

instance (word : Word) : Decidable (Nonblocking word) := inferInstanceAs (Decidable (_ ≠ _))

/-- The mode is the one that was asked for last, and nothing else has changed. -/
structure FollowsLast (word : Word) (calls : List Call) (word' : Word) : Prop where
  mode : ∀ c, calls.getLast? = some c → (Nonblocking word' ↔ c.val = true)
  others : word' &&& ~~~oNonblock = word &&& ~~~oNonblock

/-- How many calls since the last one that sets the mode unset it. -/
def unsettings (calls : List Call) : ℕ := (calls.reverse.takeWhile fun c => !c.val).length

/-- The mode was set at first, or a call sets it. -/
def SetBefore (word : Word) (calls : List Call) : Prop :=
  Nonblocking word ∨ ∃ c ∈ calls, c.val = true

/-- The last call sets the mode, or the calls since then unset it an odd number of times
if it was set before, and an even number of times if it was not. -/
def Settles (word : Word) (calls : List Call) : Prop :=
  unsettings calls = 0 ∨ (SetBefore word calls ↔ unsettings calls % 2 = 1)

section Bits

variable {word flags mask : Word}

theorem nonblocking_iff : Nonblocking word ↔ word.getLsbD 11 = true := by
  have hbit : oNonblock = BitVec.twoPow 32 11 := by decide
  unfold Nonblocking
  rw [hbit, BitVec.and_twoPow]
  split
  case isTrue hset => exact iff_of_true (by decide) hset
  case isFalse hset => exact iff_of_false (by decide) hset

theorem or_and_of_disjoint (h : oNonblock &&& mask = 0#32) :
    (word ||| oNonblock) &&& mask = word &&& mask := by
  rw [BitVec.and_or_distrib_right, h, BitVec.or_zero]

theorem xor_and_of_disjoint (h : oNonblock &&& mask = 0#32) :
    (word ^^^ oNonblock) &&& mask = word &&& mask := by
  have hsplit : (word ^^^ oNonblock) &&& mask = (word &&& mask) ^^^ (oNonblock &&& mask) :=
    BitVec.eq_of_getElem_eq (by simp [Bool.and_xor_distrib_right])
  rw [hsplit, h, BitVec.xor_zero]

/-- What differs only where it can be changed is set as it is. -/
theorem fcntlSet_eq (h : flags &&& ~~~settable = word &&& ~~~settable) :
    fcntlSet word flags = flags := by
  unfold fcntlSet
  rw [← h]
  apply BitVec.eq_of_getElem_eq
  intro i hi
  simp only [BitVec.getElem_or, BitVec.getElem_and, BitVec.getElem_not]
  cases settable[i]
  · simp
  · simp

end Bits

section Calls

variable {word word' : Word} {c : Call} {calls : List Call}

/-- A call that succeeds sets the flag, or it flips it. -/
theorem next_cases (h : next word c = some word') :
    word' = if c.val then word ||| oNonblock else word ^^^ oNonblock := by
  unfold next setNonblock at h
  cases hget : c.getFails with
  | true =>
    have hnegative : (-1 : Word).toInt < 0 := by decide
    rw [hget] at h
    dsimp only [fcntlGet] at h
    rw [if_pos rfl, if_pos hnegative] at h
    cases h
  | false =>
    rw [hget] at h
    dsimp only [fcntlGet] at h
    rw [if_neg Bool.false_ne_true] at h
    split at h
    · cases h
    · split at h
      · cases h
      · obtain rfl := Option.some.inj h
        apply fcntlSet_eq
        split
        · exact or_and_of_disjoint (by decide)
        · exact xor_and_of_disjoint (by decide)

theorem nonblocking_next (h : next word c = some word') :
    Nonblocking word' ↔ c.val = true ∨ ¬ Nonblocking word := by
  rw [next_cases h, nonblocking_iff, nonblocking_iff]
  cases c.val with
  | true => simp [oNonblock]
  | false => simp [oNonblock]

theorem others_next (h : next word c = some word') :
    word' &&& ~~~oNonblock = word &&& ~~~oNonblock := by
  rw [next_cases h]
  split
  · exact or_and_of_disjoint (by decide)
  · exact xor_and_of_disjoint (by decide)

end Calls

section Runs

variable {word word' : Word} {c : Call} {calls : List Call}

theorem unsettings_append (calls : List Call) (c : Call) :
    unsettings (calls ++ [c]) = if c.val then 0 else unsettings calls + 1 := by
  unfold unsettings
  rw [List.reverse_append, List.reverse_singleton, List.singleton_append]
  cases hval : c.val with
  | true => simp [hval]
  | false => simp [hval]

theorem setBefore_append : SetBefore word (calls ++ [c]) ↔
    SetBefore word calls ∨ c.val = true := by
  unfold SetBefore
  simp only [List.mem_append, List.mem_singleton, or_and_right, exists_or, exists_eq_left, or_assoc]

theorem others_run (hrun : run next word calls = some word') :
    word' &&& ~~~oNonblock = word &&& ~~~oNonblock := by
  have hkeeps : ∀ u c v, u &&& ~~~oNonblock = word &&& ~~~oNonblock → next u c = some v →
      v &&& ~~~oNonblock = word &&& ~~~oNonblock :=
    fun u c v hu hstep => (others_next hstep).trans hu
  exact run_keeps hkeeps rfl hrun

/-- The flag behind any calls, by induction on the last of them. -/
theorem nonblocking_run (hrun : run next word calls = some word') :
    Nonblocking word' ↔ (SetBefore word calls ↔ unsettings calls % 2 = 0) := by
  induction calls using List.reverseRecOn generalizing word' with
  | nil =>
    obtain rfl := Option.some.inj hrun
    simp [SetBefore, unsettings]
  | append_singleton calls c ih =>
    obtain ⟨mid, hmid, hlast⟩ := run_append hrun
    obtain ⟨last, hstep, hend⟩ := run_cons hlast
    obtain rfl := Option.some.inj hend
    rw [nonblocking_next hstep, ih hmid, unsettings_append, setBefore_append]
    cases c.val with
    | true => simp
    | false =>
      have hflip : (unsettings calls + 1) % 2 = 0 ↔ ¬ unsettings calls % 2 = 0 := by omega
      simp only [Bool.false_eq_true, false_or, or_false, if_false, hflip]
      rw [not_iff, not_iff_comm]
      exact Iff.comm

end Runs

/-- Where calls succeed, the mode is the one that was asked for last if and only if the
calls since the last one that sets it unset it an odd number of times, or an even number
if it was not set before. -/
theorem followsLast_iff {word word' : Word} {calls : List Call} (hne : calls ≠ [])
    (hrun : run next word calls = some word') :
    FollowsLast word calls word' ↔ Settles word calls := by
  obtain ⟨before, c, rfl⟩ := (List.eq_nil_or_concat' calls).resolve_left hne
  have hmode := nonblocking_run hrun
  rw [unsettings_append, setBefore_append] at hmode
  have hfollows : FollowsLast word (before ++ [c]) word' ↔ (Nonblocking word' ↔ c.val = true) := by
    constructor
    · intro h
      exact h.mode c (by simp)
    · intro h
      refine ⟨fun d hd => ?_, others_run hrun⟩
      obtain rfl : c = d := by simpa using hd
      exact h
  rw [hfollows, hmode, Settles, unsettings_append, setBefore_append]
  cases c.val with
  | true => simp
  | false =>
    have hodd : (unsettings before + 1) % 2 = 1 ↔ ¬ (unsettings before + 1) % 2 = 0 := by omega
    simp only [Bool.false_eq_true, or_false, if_false, hodd, Nat.succ_ne_zero, false_or, iff_false]
    rw [not_iff, not_iff_comm]
    exact Iff.comm

/-- A blocking descriptor is set and unset. -/
theorem followsLast_unset : FollowsLast 2 [⟨true, false, false, 0⟩, ⟨false, false, false, 0⟩] 2 :=
  (followsLast_iff (List.cons_ne_nil _ _) (by decide)).mpr (Or.inr (iff_of_true
    (Or.inr ⟨_, List.mem_cons_self, rfl⟩) rfl))

/-- A descriptor that blocks is told to block. -/
theorem flag_flipped : ¬ ∀ (word word' : Word) (calls : List Call), calls ≠ [] →
    run next word calls = some word' → FollowsLast word calls word' := by
  intro h
  have hfollows := h 2 0o4002 [⟨false, false, false, 0⟩] (List.cons_ne_nil _ _) (by decide)
  have hmode := (hfollows.mode _ rfl).mp (by decide)
  cases hmode

end BoxUtils.SocketFlags
