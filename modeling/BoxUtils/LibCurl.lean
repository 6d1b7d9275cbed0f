import BoxUtils.Heap
import Mathlib.Data.Int.Notation

/-!
The functions of libcurl that net/easy.cpp and net/multi.cpp call on their handles, as far as
they change what is seen of the handles: what each is documented to do, and functions that do
it. Transfers, and all options but `CURLOPT_PRIVATE`, are left out.
-/
namespace BoxUtils.Multi

open Function

/-- An easy handle: `CURLOPT_PRIVATE`, and the multi handle that it was added to. -/
structure CurlEasy where
  optPrivate : Option ℕ := none
  multi : Option ℕ := none
  deriving DecidableEq

/-- `CURLMsg`; `done` is for `CURLMSG_DONE`. -/
structure CurlMsg where
  done : Bool
  easyHandle : ℕ
  result : ℤ
  deriving DecidableEq

/-- The handles that are there, and the queues of the multi handles. -/
structure Handles where
  easy : ℕ → Option CurlEasy
  queue : ℕ → Option (List CurlMsg)

namespace Handles

variable (s : Handles)

def init : Handles := ⟨fun _ => none, fun _ => none⟩

def setEasy (h : ℕ) (e : Option CurlEasy) : Handles := { s with easy := update s.easy h e }

def setQueue (k : ℕ) (queue : Option (List CurlMsg)) : Handles :=
  { s with queue := update s.queue k queue }

/-- The messages of a handle leave a queue. -/
def forget (h k : ℕ) : Handles :=
  s.setQueue k ((s.queue k).map (List.filter fun msg => msg.easyHandle ≠ h))

def new (optPrivate : Option ℕ) : Option ℕ → Handles
  | none => s
  | some h => s.setEasy h (some ⟨optPrivate, none⟩)

def newMulti : Option ℕ → Handles
  | none => s
  | some k => s.setQueue k (some [])

end Handles

/-- The functions over the state `C` of the library, each with what it does to handles that are
there, or to null. The library may answer with any address that is free, or with null, and has
any messages about the handles in a multi handle. -/
structure LibCurl (C : Type) where
  init : C
  handles : C → Handles
  easyInit : C → C × Option ℕ
  easyDuphandle : C → ℕ → C × Option ℕ
  /-- `curl_easy_setopt` with `CURLOPT_PRIVATE`. -/
  setPrivate : C → Option ℕ → ℕ → C
  easyReset : C → ℕ → C
  easyCleanup : C → Option ℕ → C
  multiInit : C → C × Option ℕ
  multiCleanup : C → ℕ → C
  multiAddHandle : C → Option ℕ → Option ℕ → C
  multiRemoveHandle : C → Option ℕ → Option ℕ → C
  multiPerform : C → Option ℕ → C
  /-- With the number of messages that are left. -/
  multiInfoRead : C → Option ℕ → C × Option CurlMsg × ℕ
  handles_init : handles init = Handles.init
  handles_easyInit : ∀ c, (∀ h ∈ (easyInit c).2, (handles c).easy h = none) ∧
    handles (easyInit c).1 = (handles c).new none (easyInit c).2
  handles_easyDuphandle : ∀ {c h e}, (handles c).easy h = some e →
    (∀ i ∈ (easyDuphandle c h).2, (handles c).easy i = none) ∧
      handles (easyDuphandle c h).1 = (handles c).new e.optPrivate (easyDuphandle c h).2
  handles_setPrivate : ∀ {c h e} (o : ℕ), (handles c).easy h = some e →
    handles (setPrivate c (some h) o) =
      (handles c).setEasy h (some { e with optPrivate := some o })
  /-- A null handle is answered with an error. -/
  handles_setPrivate_null : ∀ c o, handles (setPrivate c none o) = handles c
  handles_easyReset : ∀ {c h e}, (handles c).easy h = some e →
    handles (easyReset c h) = (handles c).setEasy h (some { e with optPrivate := none })
  handles_easyCleanup : ∀ {c h e}, (handles c).easy h = some e → e.multi = none →
    handles (easyCleanup c (some h)) = (handles c).setEasy h none
  /-- The documentation asks to remove the handle from its multi handle first; where the
  caller has not, `curl_easy_cleanup` itself takes it out before it goes. -/
  handles_easyCleanup_added : ∀ {c h e k}, (handles c).easy h = some e → e.multi = some k →
    handles (easyCleanup c (some h)) = ((handles c).forget h k).setEasy h none
  handles_easyCleanup_null : ∀ c, handles (easyCleanup c none) = handles c
  handles_multiInit : ∀ c, (∀ k ∈ (multiInit c).2, (handles c).queue k = none) ∧
    handles (multiInit c).1 = (handles c).newMulti (multiInit c).2
  /-- The easy handles in a multi handle outlive it. -/
  handles_multiCleanup : ∀ {c k}, (handles c).queue k ≠ none →
    handles (multiCleanup c k) =
      { (handles c).setQueue k none with
        easy := fun h => ((handles c).easy h).map fun e =>
          if e.multi = some k then { e with multi := none } else e }
  /-- A handle that is in a multi handle is not added again. -/
  handles_multiAddHandle : ∀ {c h e k}, (handles c).easy h = some e → (handles c).queue k ≠ none →
    handles (multiAddHandle c (some k) (some h)) =
      (handles c).setEasy h (some { e with multi := e.multi.or (some k) })
  handles_multiAddHandle_null : ∀ {c k h}, k = none ∨ h = none →
    handles (multiAddHandle c k h) = handles c
  handles_multiRemoveHandle : ∀ {c h e k}, (handles c).easy h = some e → e.multi = some k →
    handles (multiRemoveHandle c (some k) (some h)) =
      ((handles c).forget h k).setEasy h (some { e with multi := none })
  handles_multiRemoveHandle_other : ∀ {c h e k}, (handles c).easy h = some e →
    (handles c).queue k ≠ none → e.multi ≠ some k →
    handles (multiRemoveHandle c (some k) (some h)) = handles c
  handles_multiRemoveHandle_null : ∀ {c k h}, k = none ∨ h = none →
    handles (multiRemoveHandle c k h) = handles c
  handles_multiPerform : ∀ {c k queue}, (handles c).queue k = some queue →
    ∃ msgs, (∀ msg ∈ msgs, ∃ e, (handles c).easy msg.easyHandle = some e ∧ e.multi = some k) ∧
      handles (multiPerform c (some k)) = (handles c).setQueue k (some (queue ++ msgs))
  handles_multiPerform_null : ∀ c, handles (multiPerform c none) = handles c
  handles_multiInfoRead : ∀ {c k msg queue}, (handles c).queue k = some (msg :: queue) →
    (multiInfoRead c (some k)).2 = (some msg, queue.length) ∧
      handles (multiInfoRead c (some k)).1 = (handles c).setQueue k (some queue)
  handles_multiInfoRead_nil : ∀ {c k}, (handles c).queue k = some [] →
    (multiInfoRead c (some k)).2 = (none, 0) ∧ handles (multiInfoRead c (some k)).1 = handles c
  handles_multiInfoRead_null : ∀ c, (multiInfoRead c none).2 = (none, 0) ∧
    handles (multiInfoRead c none).1 = handles c

section Reference

/-- The first of the addresses at hand that is free. -/
def freeAddress {α : Type} (cell : ℕ → Option α) : Option ℕ :=
  (List.range 64).find? fun a => (cell a).isNone

theorem freeAddress_free {α : Type} {cell : ℕ → Option α} :
    ∀ a ∈ freeAddress cell, cell a = none := by
  intro a ha
  have hfree := List.find?_some (Option.mem_def.mp ha)
  exact Option.isNone_iff_eq_none.mp hfree

/-- A change that is for an easy handle that is there. -/
def Handles.withEasy (s : Handles) (h : Option ℕ) (f : ℕ → CurlEasy → Handles) : Handles :=
  match h with
  | none => s
  | some h => (s.easy h).elim s (f h)

theorem Handles.withEasy_some {s : Handles} {h : ℕ} {e : CurlEasy} (he : s.easy h = some e)
    (f : ℕ → CurlEasy → Handles) : s.withEasy (some h) f = f h e := by
  rw [withEasy, he, Option.elim_some]

/-- The transfers in a multi handle, which have all finished. -/
def Handles.finished (s : Handles) (k : ℕ) : List CurlMsg :=
  ((List.range 64).filter fun h => (s.easy h).any (·.multi = some k)).map fun h => ⟨true, h, 0⟩

theorem Handles.finished_added {s : Handles} {k : ℕ} :
    ∀ msg ∈ s.finished k, ∃ e, s.easy msg.easyHandle = some e ∧ e.multi = some k := by
  intro msg hmsg
  obtain ⟨h, hh, rfl⟩ := List.mem_map.mp hmsg
  have hadded := (List.mem_filter.mp hh).2
  cases he : s.easy h with
  | none =>
    rw [he] at hadded
    cases hadded
  | some e =>
    rw [he, Option.any_some] at hadded
    exact ⟨e, rfl, of_decide_eq_true hadded⟩

def LibCurl.plain : LibCurl Handles where
  init := Handles.init
  handles s := s
  easyInit s := (s.new none (freeAddress s.easy), freeAddress s.easy)
  easyDuphandle s h :=
    (s.new ((s.easy h).bind (·.optPrivate)) (freeAddress s.easy), freeAddress s.easy)
  setPrivate s h o := s.withEasy h fun h e => s.setEasy h (some { e with optPrivate := some o })
  easyReset s h := s.withEasy (some h) fun h e => s.setEasy h (some { e with optPrivate := none })
  easyCleanup s h := s.withEasy h fun h e =>
    (e.multi.elim s fun k => s.forget h k).setEasy h none
  multiInit s := (s.newMulti (freeAddress s.queue), freeAddress s.queue)
  multiCleanup s k := { s.setQueue k none with
    easy := fun h => (s.easy h).map fun e =>
      if e.multi = some k then { e with multi := none } else e }
  multiAddHandle s k h := k.elim s fun k => s.withEasy h fun h e =>
    s.setEasy h (some { e with multi := e.multi.or (some k) })
  multiRemoveHandle s k h := k.elim s fun k => s.withEasy h fun h e =>
    if e.multi = some k then (s.forget h k).setEasy h (some { e with multi := none }) else s
  multiPerform s k := k.elim s fun k =>
    s.setQueue k ((s.queue k).map (· ++ s.finished k))
  multiInfoRead s k :=
    match k.bind s.queue, k with
    | some (msg :: queue), some k => (s.setQueue k (some queue), some msg, queue.length)
    | _, _ => (s, none, 0)
  handles_init := rfl
  handles_easyInit s := ⟨freeAddress_free, rfl⟩
  handles_easyDuphandle he := by
    refine ⟨freeAddress_free, ?_⟩
    rw [he, Option.bind_some]
  handles_setPrivate o he := Handles.withEasy_some he _
  handles_setPrivate_null s o := rfl
  handles_easyReset he := Handles.withEasy_some he _
  handles_easyCleanup he hmulti := by
    refine (Handles.withEasy_some he _).trans ?_
    rw [hmulti]
    rfl
  handles_easyCleanup_added he hmulti := by
    refine (Handles.withEasy_some he _).trans ?_
    rw [hmulti]
    rfl
  handles_easyCleanup_null s := rfl
  handles_multiInit s := ⟨freeAddress_free, rfl⟩
  handles_multiCleanup _ := rfl
  handles_multiAddHandle he _ := by
    rw [Option.elim_some, Handles.withEasy_some he]
  handles_multiAddHandle_null hnull := by
    rcases hnull with rfl | rfl
    · rfl
    · rename_i k
      cases k <;> rfl
  handles_multiRemoveHandle he hmulti := by
    rw [Option.elim_some, Handles.withEasy_some he, if_pos hmulti]
  handles_multiRemoveHandle_other he _ hmulti := by
    rw [Option.elim_some, Handles.withEasy_some he, if_neg hmulti]
  handles_multiRemoveHandle_null hnull := by
    rcases hnull with rfl | rfl
    · rfl
    · rename_i k
      cases k <;> rfl
  handles_multiPerform {s k queue} hqueue := by
    refine ⟨s.finished k, Handles.finished_added, ?_⟩
    rw [Option.elim_some, hqueue, Option.map_some]
  handles_multiPerform_null s := rfl
  handles_multiInfoRead {s k msg queue} hqueue := by
    simp [hqueue]
  handles_multiInfoRead_nil {s k} hqueue := by
    simp [hqueue]
  handles_multiInfoRead_null s := ⟨rfl, rfl⟩

end Reference

end BoxUtils.Multi
