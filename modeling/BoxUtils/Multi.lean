import BoxUtils.LibCurl
import BoxUtils.Runs

/-!
The multi interface of net/multi.cpp, with the `Easy` objects of net/easy.cpp. A curl handle
keeps the address of its `Easy` in an option, and the `Easy` keeps the user data that was
given when it was added; `get_msg` goes from the handle of a message to both. The objects and
the handles are known by their addresses, which may be used again. A call with a handle that
is gone has no result.
-/
namespace BoxUtils.Multi

open Function

structure Easy where
  handle : Option ℕ
  multiUserdata : Option ℕ := none
  deriving DecidableEq

structure MultiMsg where
  multi : ℕ
  easy : ℕ
  userdata : Option ℕ
  code : ℤ
  deriving DecidableEq

/-- What a call of `get_msg` gives: the message, if it returns true, and the number of
messages in the queue. -/
abbrev Got := Option MultiMsg × ℕ

structure State (C : Type) where
  curl : C
  easy : ℕ → Option Easy
  /-- The handles of the `Multi` objects. -/
  multi : ℕ → Option (Option ℕ)
  got : List Got

inductive Action
  | construct (o : ℕ)
  | move (o src : ℕ)
  /-- The copy constructor, or `clone`. -/
  | copy (o src : ℕ)
  | destroy (o : ℕ)
  | reset (o : ℕ)
  | constructMulti (m : ℕ)
  | moveMulti (m src : ℕ)
  | destroyMulti (m : ℕ)
  | addHandle (m o : ℕ) (userdata : Option ℕ)
  | removeHandle (m o : ℕ)
  | perform (m : ℕ)
  | getMsg (m : ℕ)
  deriving DecidableEq

section Source

variable {C : Type} (lib : LibCurl C)

def HasEasy (c : C) (h : Option ℕ) : Prop := ∀ i ∈ h, (lib.handles c).easy i ≠ none

instance (c : C) (h : Option ℕ) : Decidable (HasEasy lib c h) :=
  inferInstanceAs (Decidable (∀ i ∈ h, _))

def HasMulti (c : C) (k : Option ℕ) : Prop := ∀ i ∈ k, (lib.handles c).queue i ≠ none

instance (c : C) (k : Option ℕ) : Decidable (HasMulti lib c k) :=
  inferInstanceAs (Decidable (∀ i ∈ k, _))

/-- `Easy::Easy(void *)`, and what the other constructors do once they have a handle. -/
def wrap (s : State C) (o : ℕ) (h : Option ℕ) : Option (State C) :=
  if HasEasy lib s.curl h then
    some { s with
      curl := lib.setPrivate s.curl h o
      easy := update s.easy o (some ⟨h, none⟩) }
  else none

/-- `Easy::GetRefFrom`; `none` is for the exception as well. -/
def getRefFrom (s : State C) (h : ℕ) : Option ℕ := do
  let e ← (lib.handles s.curl).easy h
  e.optPrivate

/-- The loop of `get_msg`. -/
def getMsg (m : ℕ) (k : Option ℕ) : ℕ → State C → Option (State C × Got)
  | 0, _ => none
  | turns + 1, s =>
    if HasMulti lib s.curl k then
      match lib.multiInfoRead s.curl k with
      | (curl, none, msgInQueue) => some ({ s with curl }, none, msgInQueue)
      | (curl, some cmsg, msgInQueue) =>
        let s := { s with curl }
        if !cmsg.done then getMsg m k turns s
        else do
          let o ← getRefFrom lib s cmsg.easyHandle
          let easy ← s.easy o
          some (s, some ⟨m, o, easy.multiUserdata, cmsg.result⟩, msgInQueue)
    else none

/-- There is a turn for each message, and one for the end of the queue. -/
def turns (s : State C) (k : Option ℕ) : ℕ :=
  (k.bind (lib.handles s.curl).queue).elim 0 List.length + 1

/-- `for_msg`, with the messages that its function is called with. -/
def forMsg (m : ℕ) : ℕ → State C → Option (State C × List MultiMsg)
  | 0, _ => none
  | rounds + 1, s => do
    let k ← s.multi m
    let (s, got) ← getMsg lib m k (turns lib s k) s
    match got with
    | (none, _) => some (s, [])
    | (some msg, _) => do
      let (s, msgs) ← forMsg m rounds s
      some (s, msg :: msgs)

def next (s : State C) : Action → Option (State C)
  | .construct o =>
    if s.easy o = none then
      let (curl, h) := lib.easyInit s.curl
      wrap lib { s with curl } o h
    else none
  | .move o src =>
    if s.easy o = none then do
      let easy ← s.easy src
      if HasEasy lib s.curl easy.handle then
        some { s with
          curl := lib.setPrivate s.curl easy.handle o
          easy := update (update s.easy o (some easy)) src (some ⟨none, none⟩) }
      else none
    else none
  | .copy o src =>
    if s.easy o = none then do
      let h ← (← s.easy src).handle
      if HasEasy lib s.curl (some h) then
        let (curl, h) := lib.easyDuphandle s.curl h
        wrap lib { s with curl } o h
      else none
    else none
  | .destroy o => do
    let easy ← s.easy o
    if HasEasy lib s.curl easy.handle then
      some { s with
        curl := lib.easyCleanup s.curl easy.handle
        easy := update s.easy o none }
    else none
  | .reset o => do
    let easy ← s.easy o
    let h ← easy.handle
    if HasEasy lib s.curl (some h) then
      let s := { s with curl := lib.easyReset s.curl h }
      if HasEasy lib s.curl (some h) then
        some { s with
          curl := lib.setPrivate s.curl (some h) o
          easy := update s.easy o (some { easy with multiUserdata := none }) }
      else none
    else none
  | .constructMulti m =>
    if s.multi m = none then
      let (curl, k) := lib.multiInit s.curl
      some { s with curl, multi := update s.multi m (some k) }
    else none
  | .moveMulti m src =>
    if s.multi m = none then do
      let k ← s.multi src
      some { s with multi := update (update s.multi m (some k)) src (some none) }
    else none
  | .destroyMulti m => do
    match ← s.multi m with
    | none => some { s with multi := update s.multi m none }
    | some k =>
      if HasMulti lib s.curl (some k) then
        some { s with
          curl := lib.multiCleanup s.curl k
          multi := update s.multi m none }
      else none
  | .addHandle m o userdata => do
    let k ← s.multi m
    let easy ← s.easy o
    if HasMulti lib s.curl k ∧ HasEasy lib s.curl easy.handle then
      some { s with
        easy := update s.easy o (some { easy with multiUserdata := userdata })
        curl := lib.multiAddHandle s.curl k easy.handle }
    else none
  | .removeHandle m o => do
    let k ← s.multi m
    let easy ← s.easy o
    if HasMulti lib s.curl k ∧ HasEasy lib s.curl easy.handle then
      some { s with curl := lib.multiRemoveHandle s.curl k easy.handle }
    else none
  | .perform m => do
    let k ← s.multi m
    if HasMulti lib s.curl k then some { s with curl := lib.multiPerform s.curl k } else none
  | .getMsg m => do
    let k ← s.multi m
    let (s, got) ← getMsg lib m k (turns lib s k) s
    some { s with got := s.got ++ [got] }

def init : State C := ⟨lib.init, fun _ => none, fun _ => none, []⟩

end Source

end BoxUtils.Multi
