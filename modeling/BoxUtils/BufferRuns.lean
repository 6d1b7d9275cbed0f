import BoxUtils.Buffer
import BoxUtils.Runs

/-!
Runs over any number of buffers. Each buffer has a list of its own in the model, and an
operation on one buffer changes that list only, so a copy and its source go separate
ways. Moving forward is the one operation whose result the model leaves open: it takes
into the list whatever the caller has written behind it.
-/
namespace BoxUtils.Buffers

open Runs Function

structure State where
  memory : Memory
  buffer : ℕ → Option Buffer
  /-- What `write` has returned, call by call. -/
  returned : List ℕ

inductive Action
  | construct (o size : ℕ)
  | copy (o src : ℕ)
  | move (o src : ℕ)
  | destroy (o : ℕ)
  | write (o : ℕ) (data : List UInt8)
  | append (o : ℕ) (data : List UInt8)
  | extend (o size : ℕ)
  | resize (o newSize : ℕ)
  | clear (o : ℕ)
  | detach (o : ℕ)
  | moveForward (o byte : ℕ)
  /-- The caller writes behind the bytes in use, through `data()`. -/
  | fill (o : ℕ) (bytes : List UInt8)
  deriving DecidableEq, Repr

namespace State

def init : State := ⟨Heap.empty, fun _ => none, []⟩

def set (s : State) (o : ℕ) (r : Memory × Buffer) : State :=
  { s with memory := r.1, buffer := update s.buffer o (some r.2) }

end State

section Steps

variable (C : Allocator)

def perform (s : State) : Action → Option State
  | .construct o size => some (s.set o (Buffer.construct C s.memory size))
  | .copy o src => do
    let buffer ← s.buffer src
    let r ← Buffer.copy C s.memory buffer
    some (s.set o r)
  | .move o src => do
    let buffer ← s.buffer src
    let (new, old) := Buffer.move buffer
    some { s with buffer := update (update s.buffer src (some old)) o (some new) }
  | .destroy o => do
    let b ← s.buffer o
    let H ← b.destroy s.memory
    some { s with memory := H, buffer := update s.buffer o none }
  | .write o data => do
    let b ← s.buffer o
    let (r, n) ← b.write s.memory data
    some { s.set o r with returned := s.returned ++ [n] }
  | .append o data => do
    let b ← s.buffer o
    let r ← b.append C s.memory data
    some (s.set o r)
  | .extend o size => do
    let b ← s.buffer o
    let r ← b.extend C s.memory size
    some (s.set o r)
  | .resize o newSize => do
    let b ← s.buffer o
    let r ← b.resize C s.memory newSize
    some (s.set o r)
  | .clear o => do
    let b ← s.buffer o
    some (s.set o (s.memory, b.clear))
  | .detach o => do
    let b ← s.buffer o
    some (s.set o (s.memory, b.detach.1))
  | .moveForward o byte => do
    let b ← s.buffer o
    some (s.set o (s.memory, b.moveForward byte))
  | .fill o bytes => do
    let b ← s.buffer o
    let H ← memcpy s.memory b.mem b.usedSize bytes
    some (s.set o (H, b))

/-- The objects are there, or not yet there, no size exceeds the range of `size_t`, and the
caller stays within the block. -/
def Allowed (s : State) : Action → Prop
  | .construct o size => s.buffer o = none ∧ size < sizeRange
  | .copy o src => s.buffer o = none ∧ ∃ b ∈ s.buffer src, True
  | .move o src => s.buffer o = none ∧ ∃ b ∈ s.buffer src, True
  | .destroy o => ∃ b ∈ s.buffer o, True
  | .write o data => ∃ b ∈ s.buffer o, b.usedSize + data.length < sizeRange
  | .append o data => ∃ b ∈ s.buffer o,
      b.usedSize + data.length ≤ b.memSize ∨ b.memSize + data.length < sizeRange
  | .extend o size => ∃ b ∈ s.buffer o, b.memSize + size < sizeRange
  | .resize o newSize => ∃ b ∈ s.buffer o, newSize < sizeRange
  | .clear o => ∃ b ∈ s.buffer o, True
  | .detach o => ∃ b ∈ s.buffer o, True
  | .moveForward o byte => ∃ b ∈ s.buffer o, byte ≤ b.availableSize
  | .fill o bytes => ∃ b ∈ s.buffer o, bytes.length ≤ b.availableSize

instance (s : State) (a : Action) : Decidable (Allowed s a) := by
  cases a <;> dsimp only [Allowed] <;> infer_instance

def next (s : State) (a : Action) : Option State :=
  if Allowed s a then perform C s a else none

end Steps

section Specification

/-- Each buffer has a list of its own. -/
structure Model where
  value : ℕ → Option Bounded
  returned : List ℕ

namespace Model

def init : Model := ⟨fun _ => none, []⟩

def set (M : Model) (o : ℕ) (v : Bounded) : Model :=
  { M with value := update M.value o (some v) }

end Model

inductive Spec (M : Model) : Action → Model → Prop
  | construct {o size : ℕ} : Spec M (.construct o size) (M.set o (.empty size))
  | copy {o src : ℕ} {v : Bounded} (hv : M.value src = some v) :
      Spec M (.copy o src) (M.set o v)
  | move {o src : ℕ} {v : Bounded} (hv : M.value src = some v) :
      Spec M (.move o src) ((M.set src (.empty 0)).set o v)
  | destroy {o : ℕ} : Spec M (.destroy o) { M with value := update M.value o none }
  | write {o : ℕ} {data : List UInt8} {v : Bounded} (hv : M.value o = some v) :
      Spec M (.write o data)
        { M.set o (v.write data) with returned := M.returned ++ [min data.length v.room] }
  | append {o : ℕ} {data : List UInt8} {v : Bounded} (hv : M.value o = some v) :
      Spec M (.append o data) (M.set o (v.append data))
  | extend {o size : ℕ} {v : Bounded} (hv : M.value o = some v) :
      Spec M (.extend o size) (M.set o (v.extend size))
  | resize {o newSize : ℕ} {v : Bounded} (hv : M.value o = some v) :
      Spec M (.resize o newSize) (M.set o (v.resize newSize))
  | clear {o : ℕ} {v : Bounded} (hv : M.value o = some v) :
      Spec M (.clear o) (M.set o v.clear)
  | detach {o : ℕ} : Spec M (.detach o) (M.set o (.empty 0))
  | moveForward {o byte : ℕ} {v : Bounded} {bytes : List UInt8} (hv : M.value o = some v)
      (hbytes : bytes.length = byte) (hfit : bytes.length ≤ v.room) :
      Spec M (.moveForward o byte) (M.set o (v.advance bytes hfit))
  | fill {o : ℕ} {bytes : List UInt8} : Spec M (.fill o bytes) M

/-- Every buffer holds the list of the model, and no two buffers share a block. -/
structure Represents (s : State) (M : Model) : Prop where
  holds : ∀ o b, s.buffer o = some b → ∃ v, M.value o = some v ∧ Holds s.memory b v
  absent : ∀ o, s.buffer o = none → M.value o = none
  own : ∀ o p b c a, s.buffer o = some b → s.buffer p = some c →
    b.mem = some a → c.mem = some a → o = p
  returned : s.returned = M.returned

end Specification

section Changes

variable {H H' : Memory} {s : State} {M : Model} {o : ℕ} {b b' c : Buffer} {v v' : Bounded}
  {mem mem' : Option ℕ}

theorem Holds.live (h : Holds H c v) {a : ℕ} (hmem : c.mem = some a) : H.cell a ≠ none := by
  obtain ⟨block, hblock, -⟩ := h.block
  rw [hmem] at hblock
  have hcell : H.cell a = some block := hblock
  rw [hcell]
  exact Option.some_ne_none block

/-- A buffer is made or changed, and with it its list in the model. -/
theorem Represents.set (h : Represents s M) (hb : Holds H' b' v')
    (htouch : Touches s.memory H' mem b'.mem)
    (hother : ∀ p c a, p ≠ o → s.buffer p = some c → c.mem = some a → mem ≠ some a) :
    Represents (s.set o (H', b')) (M.set o v') := by
  have hnew : ∀ p c a, p ≠ o → s.buffer p = some c → c.mem = some a → b'.mem ≠ some a := by
    intro p c a hpo hc hca hba
    obtain ⟨w, -, hw⟩ := h.holds p c hc
    rcases htouch.pointer a hba with hold | hdead
    · exact hother p c a hpo hc hca hold
    · exact hw.live hca hdead
  constructor
  · intro p c hc
    by_cases hpo : p = o
    · subst p
      have hcb : b' = c := by simpa [State.set] using hc
      subst c
      exact ⟨v', by simp [Model.set], hb⟩
    · have hold : s.buffer p = some c := by simpa [State.set, hpo] using hc
      obtain ⟨w, hw, hholds⟩ := h.holds p c hold
      refine ⟨w, by simpa [Model.set, hpo] using hw, hholds.frame htouch ?_⟩
      intro a hca
      exact hother p c a hpo hold hca
  · intro p hp
    by_cases hpo : p = o
    · subst p
      simp [State.set] at hp
    · have hold : s.buffer p = none := by simpa [State.set, hpo] using hp
      simpa [Model.set, hpo] using h.absent p hold
  · intro p q c d a hc hd hca hda
    by_cases hpo : p = o <;> by_cases hqo : q = o
    · rw [hpo, hqo]
    · subst p
      have hcb : b' = c := by simpa [State.set] using hc
      have hold : s.buffer q = some d := by simpa [State.set, hqo] using hd
      rw [← hcb] at hca
      exact absurd hca (hnew q d a hqo hold hda)
    · subst q
      have hdb : b' = d := by simpa [State.set] using hd
      have hold : s.buffer p = some c := by simpa [State.set, hpo] using hc
      rw [← hdb] at hda
      exact absurd hda (hnew p c a hpo hold hca)
    · have hcold : s.buffer p = some c := by simpa [State.set, hpo] using hc
      have hdold : s.buffer q = some d := by simpa [State.set, hqo] using hd
      exact h.own p q c d a hcold hdold hca hda
  · exact h.returned

/-- An operation on a buffer that is there may touch its own block. -/
theorem Represents.change (h : Represents s M) (ho : s.buffer o = some b)
    (hb : Holds H' b' v') (htouch : Touches s.memory H' b.mem b'.mem) :
    Represents (s.set o (H', b')) (M.set o v') := by
  apply h.set hb htouch
  intro p c a hpo hc hca hba
  exact hpo (h.own p o c b a hc ho hca hba)

/-- A new buffer gets a block of its own. -/
theorem Represents.add (h : Represents s M) (hb : Holds H' b' v')
    (htouch : Touches s.memory H' none b'.mem) :
    Represents (s.set o (H', b')) (M.set o v') := by
  apply h.set hb htouch
  intro p c a _ _ _ hnone
  cases hnone

theorem Represents.drop (h : Represents s M) (ho : s.buffer o = some b)
    (htouch : Touches s.memory H' b.mem none) :
    Represents { s with memory := H', buffer := update s.buffer o none }
      { M with value := update M.value o none } := by
  have hold : ∀ p c, update s.buffer o none p = some c → p ≠ o ∧ s.buffer p = some c := by
    intro p c hc
    by_cases hpo : p = o
    · subst p
      simp at hc
    · exact ⟨hpo, by simpa [hpo] using hc⟩
  constructor
  · intro p c hc
    obtain ⟨hpo, hp⟩ := hold p c hc
    obtain ⟨w, hw, hholds⟩ := h.holds p c hp
    refine ⟨w, by simpa [hpo] using hw, hholds.frame htouch ?_⟩
    intro a hca hba
    exact hpo (h.own p o c b a hp ho hca hba)
  · intro p hp
    by_cases hpo : p = o
    · subst p
      simp
    · have hp' : s.buffer p = none := by simpa [hpo] using hp
      simpa [hpo] using h.absent p hp'
  · intro p q c d a hc hd hca hda
    exact h.own p q c d a (hold p c hc).2 (hold q d hd).2 hca hda
  · exact h.returned

/-- A buffer that was moved leaves its block to the new one. -/
theorem Represents.move (h : Represents s M) {src : ℕ} (ho : s.buffer o = none)
    (hsrc : s.buffer src = some b) {v : Bounded} (hv : M.value src = some v) :
    Represents
      { s with buffer := update (update s.buffer src (some ⟨none, 0, 0⟩)) o (some b) }
      ((M.set src (.empty 0)).set o v) := by
  have hne : src ≠ o := by
    intro heq
    rw [heq, ho] at hsrc
    cases hsrc
  obtain ⟨w, hw, hholds⟩ := h.holds src b hsrc
  obtain rfl : v = w := Option.some.inj (hv.symm.trans hw)
  -- the owner of a block before the move
  let was : ℕ → ℕ := fun p => if p = o then src else p
  have hold : ∀ p c a, update (update s.buffer src (some ⟨none, 0, 0⟩)) o (some b) p = some c →
      c.mem = some a → p ≠ src ∧ s.buffer (was p) = some c := by
    intro p c a hc hca
    by_cases hpo : p = o
    · subst p
      have hcb : b = c := by simpa using hc
      exact ⟨hne.symm, by simp [was, hsrc, hcb]⟩
    · by_cases hps : p = src
      · subst p
        have hcn : (⟨none, 0, 0⟩ : Buffer) = c := by simpa [hpo] using hc
        rw [← hcn] at hca
        cases hca
      · exact ⟨hps, by simpa [was, hpo, hps] using hc⟩
  constructor
  · intro p c hc
    by_cases hpo : p = o
    · subst p
      have hcb : b = c := by simpa using hc
      subst c
      exact ⟨v, by simp [Model.set], hholds⟩
    · by_cases hps : p = src
      · subst p
        have hcn : (⟨none, 0, 0⟩ : Buffer) = c := by simpa [hpo] using hc
        subst c
        exact ⟨.empty 0, by simp [Model.set, hpo], holds_null s.memory⟩
      · have hp : s.buffer p = some c := by simpa [hpo, hps] using hc
        obtain ⟨w, hw, hwholds⟩ := h.holds p c hp
        exact ⟨w, by simpa [Model.set, hpo, hps] using hw, hwholds⟩
  · intro p hp
    by_cases hpo : p = o
    · subst p
      simp at hp
    · by_cases hps : p = src
      · subst p
        simp [hpo] at hp
      · have hp' : s.buffer p = none := by simpa [hpo, hps] using hp
        simpa [Model.set, hpo, hps] using h.absent p hp'
  · intro p q c d a hc hd hca hda
    obtain ⟨hps, hp⟩ := hold p c a hc hca
    obtain ⟨hqs, hq⟩ := hold q d a hd hda
    have hwas : was p = was q := h.own _ _ c d a hp hq hca hda
    by_cases hpo : p = o <;> by_cases hqo : q = o
    · rw [hpo, hqo]
    · simp only [was, if_pos hpo, if_neg hqo] at hwas
      exact absurd hwas.symm hqs
    · simp only [was, if_neg hpo, if_pos hqo] at hwas
      exact absurd hwas hps
    · simpa only [was, if_neg hpo, if_neg hqo] using hwas
  · exact h.returned

end Changes

section Refinement

variable {C : Allocator} {s t : State} {M : Model} {a : Action}

theorem Represents.init : Represents State.init Model.init := by
  constructor
  · intro o b hb
    cases hb
  · intro o _
    rfl
  · intro o p b c a hb
    cases hb
  · rfl

theorem Represents.get (h : Represents s M) {o : ℕ} {b : Buffer} (hb : b ∈ s.buffer o) :
    ∃ v, s.buffer o = some b ∧ M.value o = some v ∧ Holds s.memory b v := by
  obtain ⟨v, hv, hholds⟩ := h.holds o b hb
  exact ⟨v, hb, hv, hholds⟩

/-- An allowed action has a result, and the specification allows it. -/
theorem perform_spec (h : Represents s M) (ha : Allowed s a) :
    ∃ t N, perform C s a = some t ∧ Spec M a N ∧ Represents t N := by
  cases a with
  | construct o size =>
    obtain ⟨hnew, hsize⟩ := ha
    obtain ⟨hholds, htouch⟩ := construct_spec C s.memory hsize
    exact ⟨_, _, rfl, .construct, h.add hholds htouch⟩
  | copy o src =>
    obtain ⟨hnew, b, hb, -⟩ := ha
    obtain ⟨v, hsrc, hv, hholds⟩ := h.get hb
    obtain ⟨H', b', hcopy, hholds', htouch⟩ := copy_spec C hholds
    refine ⟨_, _, ?_, .copy hv, h.add hholds' htouch⟩
    simp only [perform, hsrc, hcopy, Option.bind_eq_bind, Option.bind_some]
  | move o src =>
    obtain ⟨hnew, b, hb, -⟩ := ha
    obtain ⟨v, hsrc, hv, hholds⟩ := h.get hb
    refine ⟨_, _, ?_, .move hv, h.move hnew hsrc hv⟩
    simp only [perform, hsrc, Buffer.move, Option.bind_eq_bind, Option.bind_some]
  | destroy o =>
    obtain ⟨b, hb, -⟩ := ha
    obtain ⟨v, ho, hv, hholds⟩ := h.get hb
    obtain ⟨block, hblock, -⟩ := hholds.block
    obtain ⟨H', hfree, htouch⟩ := free_spec hblock
    refine ⟨_, _, ?_, .destroy, h.drop ho htouch⟩
    simp only [perform, ho, Buffer.destroy, hfree, Option.bind_eq_bind, Option.bind_some]
  | write o data =>
    obtain ⟨b, hb, hrange⟩ := ha
    obtain ⟨v, ho, hv, hholds⟩ := h.get hb
    obtain ⟨H', b', hwrite, hholds', htouch⟩ := write_spec hholds (Or.inr hrange)
    have hrep := h.change ho hholds' htouch
    refine ⟨{ s.set o (H', b') with returned := s.returned ++ [min data.length v.room] }, _, ?_,
      .write hv, ⟨hrep.holds, hrep.absent, hrep.own, ?_⟩⟩
    · simp only [perform, ho, hwrite, Option.bind_eq_bind, Option.bind_some]
    · rw [h.returned]
  | append o data =>
    obtain ⟨b, hb, hrange⟩ := ha
    obtain ⟨v, ho, hv, hholds⟩ := h.get hb
    have hused := hholds.usedSize
    have hcap := hholds.capacity
    have hroom : v.room = v.capacity - v.contents.length := rfl
    have hfit : data.length ≤ v.room ∨ b.memSize + data.length < sizeRange := by
      rcases hrange with hfits | hgrows
      · left
        omega
      · exact Or.inr hgrows
    obtain ⟨H', b', happend, hholds', htouch⟩ := append_spec C hholds hfit
    refine ⟨_, _, ?_, .append hv, h.change ho hholds' htouch⟩
    rw [perform, ho, Option.bind_eq_bind, Option.bind_some, happend]
    rfl
  | extend o size =>
    obtain ⟨b, hb, hrange⟩ := ha
    obtain ⟨v, ho, hv, hholds⟩ := h.get hb
    obtain ⟨H', b', hextend, hholds', htouch⟩ := extend_spec C hholds hrange
    refine ⟨_, _, ?_, .extend hv, h.change ho hholds' htouch⟩
    simp only [perform, ho, hextend, Option.bind_eq_bind, Option.bind_some]
  | resize o newSize =>
    obtain ⟨b, hb, hrange⟩ := ha
    obtain ⟨v, ho, hv, hholds⟩ := h.get hb
    obtain ⟨H', b', hresize, hholds', htouch⟩ := resize_spec C hholds hrange
    refine ⟨_, _, ?_, .resize hv, h.change ho hholds' htouch⟩
    simp only [perform, ho, hresize, Option.bind_eq_bind, Option.bind_some]
  | clear o =>
    obtain ⟨b, hb, -⟩ := ha
    obtain ⟨v, ho, hv, hholds⟩ := h.get hb
    refine ⟨_, _, ?_, .clear hv, h.change ho (clear_spec hholds) (Touches.refl s.memory b.mem)⟩
    simp only [perform, ho, Option.bind_eq_bind, Option.bind_some]
  | detach o =>
    obtain ⟨b, hb, -⟩ := ha
    obtain ⟨v, ho, hv, hholds⟩ := h.get hb
    refine ⟨_, _, ?_, .detach,
      h.change ho (holds_null s.memory) (Touches.toNull s.memory b.mem)⟩
    simp only [perform, ho, Buffer.detach, Option.bind_eq_bind, Option.bind_some]
  | moveForward o byte =>
    obtain ⟨b, hb, hroom⟩ := ha
    obtain ⟨v, ho, hv, hholds⟩ := h.get hb
    rw [Buffer.availableSize, room_eq hholds] at hroom
    obtain ⟨bytes, hfit, hbytes, hholds'⟩ := moveForward_spec hholds hroom
    refine ⟨_, _, ?_, .moveForward hv hbytes hfit,
      h.change ho hholds' (Touches.refl s.memory b.mem)⟩
    simp only [perform, ho, Option.bind_eq_bind, Option.bind_some]
  | fill o bytes =>
    obtain ⟨b, hb, hroom⟩ := ha
    obtain ⟨v, ho, hv, hholds⟩ := h.get hb
    rw [Buffer.availableSize, room_eq hholds] at hroom
    obtain ⟨H', hcopy, hholds', htouch⟩ := fill_spec hholds hroom
    have hsame : M.set o v = M := by
      rw [Model.set, update_eq_self_iff.mpr hv.symm]
    have hrep := h.change ho hholds' htouch
    rw [hsame] at hrep
    refine ⟨_, M, ?_, .fill, hrep⟩
    simp only [perform, ho, hcopy, Option.bind_eq_bind, Option.bind_some]

theorem next_spec (h : Represents s M) (hstep : next C s a = some t) :
    ∃ N, Spec M a N ∧ Represents t N := by
  obtain ⟨ha, hperform⟩ := Option.ite_none_right_eq_some.mp hstep
  obtain ⟨u, N, hu, hspec, hrep⟩ := perform_spec (C := C) h ha
  obtain rfl : u = t := Option.some.inj (hu.symm.trans hperform)
  exact ⟨N, hspec, hrep⟩

end Refinement

/-- In every reachable state each buffer holds the list that the specification reaches
with the same calls, and every allowed call has a result. -/
theorem buffers_refine_lists (C : Allocator) {as : List Action} {s : State}
    (hrun : run (next C) State.init as = some s) :
    ∃ M, Reaches Spec Model.init as M ∧ Represents s M ∧
      ∀ a, Allowed s a → ∃ t, next C s a = some t := by
  have hstep : ∀ s M a t, Represents s M → next C s a = some t →
      ∃ N, Spec M a N ∧ Represents t N := by
    intro s M a t h hstep
    exact next_spec h hstep
  obtain ⟨M, hreach, hrep⟩ := run_simulated hstep Represents.init hrun
  refine ⟨M, hreach, hrep, ?_⟩
  intro a ha
  obtain ⟨t, -, hperform, -⟩ := perform_spec (C := C) hrep ha
  exact ⟨t, (if_pos ha).trans hperform⟩

/-- A buffer that grows, its copy, and a buffer that takes the block over. -/
theorem buffers_refine_lists_copy :
    let calls : List Action := [.construct 0 2, .append 0 [1, 2, 3], .copy 1 0, .write 0 [4, 5],
      .resize 1 2, .move 2 0, .fill 2 [], .moveForward 2 0, .destroy 1, .detach 2]
    ∃ s M, Reaches Spec Model.init calls M ∧ Represents s M := by
  let C : Allocator := ⟨fun _ _ => 0, false, true⟩
  let calls : List Action := [.construct 0 2, .append 0 [1, 2, 3], .copy 1 0, .write 0 [4, 5],
    .resize 1 2, .move 2 0, .fill 2 [], .moveForward 2 0, .destroy 1, .detach 2]
  have hsome : (run (next C) State.init calls).isSome := by decide +kernel
  obtain ⟨s, hrun⟩ := Option.isSome_iff_exists.mp hsome
  obtain ⟨M, hreach, hrep, -⟩ := buffers_refine_lists C hrun
  exact ⟨s, M, hreach, hrep⟩

end BoxUtils.Buffers
