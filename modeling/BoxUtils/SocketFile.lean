import BoxUtils.OwningObjects
import Mathlib.Data.Int.Notation

/-!
The classes `Socket` of socket.cpp and `File` of filesystem.cpp as objects that own a
handle of the system. In both `close` leaves the stored handle as it is, and what
marks a handle as gone is what `detach` leaves behind: -1 or the null pointer. A
socket tests for values that are not positive, so 0 is never closed. The move
constructor of `File` is declared and not defined, so that no `File` is moved.
-/
namespace BoxUtils.SocketFile

open Runs Owning

/-- `BOX_SOCKET_INVAID` of the systems on which a socket is an int. -/
def boxSocketInvaid (s : ℤ) : Bool := s ≤ 0

def socket : Kind ℤ where
  none := -1
  closes fd := !boxSocketInvaid fd
  takes fd := 0 ≤ fd
  moves := true
  none_kept := rfl

/-- `File::From` throws for a null pointer; `File::detach` throws for one and leaves it. -/
def file : Kind (Option ℕ) where
  none := none
  closes fptr := fptr.isSome
  takes fptr := fptr.isSome
  moves := false
  none_kept := rfl

/-- A socket that owns a descriptor is destroyed in turn when the descriptor is positive
and has not been closed. -/
theorem socket_destroy_iff {s : State ℤ} {o r : ℕ} (hr : s.owns o = some r) :
    ClosesInTurn socket s (.destroy o) ↔ 0 < s.value o ∧ s.closes r = 0 := by
  simp [ClosesInTurn, hr, socket, boxSocketInvaid]

/-- Over any sequence of operations on sockets, and on files, every handle that was taken
over is closed exactly once if and only if each closing and each end comes in turn. -/
theorem closedOnce_iff (sockets : List (Op ℤ)) (files : List (Op (Option ℕ))) :
    (Throughout socket.next ClosedOnce socket.init sockets ↔
      StepsMeet socket.next (ClosesInTurn socket) socket.init sockets) ∧
    (Throughout file.next ClosedOnce file.init files ↔
      StepsMeet file.next (ClosesInTurn file) file.init files) :=
  ⟨closedOnce_run_iff socket sockets, closedOnce_run_iff file files⟩

/-- A socket that is closed and then destroyed closes its descriptor twice. -/
theorem closed_twice : ¬ ((∀ as : List (Op ℤ), Throughout socket.next ClosedOnce socket.init as) ∧
    ∀ as : List (Op (Option ℕ)), Throughout file.next ClosedOnce file.init as) := by
  rintro ⟨h, -⟩
  let as : List (Op ℤ) := [.construct 0 5, .close 0, .destroy 0]
  have hlast : (run socket.next socket.init as).map (fun s => s.closes 0) = some 2 := by
    decide
  obtain ⟨s, hs, hcloses⟩ := Option.map_eq_some_iff.mp hlast
  have hle := ((h as).final hs).atMostOnce 0
  omega

/-- The descriptor 0 is never closed. -/
example : (run socket.next socket.init [.construct 0 0, .close 0, .destroy 0]).map
    (fun s => (s.ended, s.closes 0)) = some ([0], 0) := by
  decide

end BoxUtils.SocketFile
