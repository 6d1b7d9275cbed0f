import Mathlib.Data.List.Basic
import BoxUtils.Descriptors
import BoxUtils.Runs

/-!
The descriptor tables of a program and of its children over successful calls of
`SubProcess::run`. The pipe that reports a failed exec is closed on exec, the
pipes of redirected streams are not: an end that the program keeps for one child
is inherited by every later one.
-/
namespace BoxUtils.Redirect

open Descriptors Runs Function

inductive Stream
  | stdin
  | stdout
  | stderr
  deriving DecidableEq, Repr

/-- The flags of a call, and the descriptors that the kernel picks for its pipes. -/
structure Call where
  reIn : Bool
  reOut : Bool
  reErr : Bool
  fds : ℕ × ℕ
  inFds : ℕ × ℕ
  outFds : ℕ × ℕ
  errFds : ℕ × ℕ
  deriving DecidableEq, Repr

/-- The program's end of a redirected stream, and the descriptor it got. -/
structure End where
  stream : Stream
  fd : ℕ
  file : File
  deriving DecidableEq, Repr

structure State where
  parent : Table
  /-- The tables with which the children have started to run their programs. -/
  children : List Table
  /-- The number of the next pipe. -/
  pipes : ℕ
  redirected : List End

/-- The program may have any files open. -/
def init (opened : ℕ → Option (ℕ × Bool)) : State where
  parent := fun fd => (opened fd).map fun file => ⟨.other file.1, file.2⟩
  children := []
  pipes := 0
  redirected := []

section Source

/-- The macro `REDIRECT`. -/
def redirect (val : Bool) (t : Table) (fds : ℕ × ℕ) (number : ℕ) : Option Table :=
  if val then pipe t fds number false else some t

/-- The pipes of a call, as they are when it forks. -/
def openPipes (c : Call) (t : Table) (number : ℕ) : Option Table := do
  let t ← pipe t c.fds number true
  let t ← redirect c.reIn t c.inFds (number + 1)
  let t ← redirect c.reOut t c.outFds (number + 2)
  redirect c.reErr t c.errFds (number + 3)

/-- What the child does for a stream: it closes the program's end and duplicates its own. -/
def redirectFd (val : Bool) (closed source target : ℕ) (t : Table) : Table :=
  if val then dup2 (close t closed) source target else t

/-- The branch of the child, up to `execvp`. -/
def childBranch (c : Call) (t : Table) : Table :=
  let t := close t c.fds.1
  let t := redirectFd c.reIn c.inFds.2 c.inFds.1 0 t
  let t := redirectFd c.reOut c.outFds.1 c.outFds.2 1 t
  redirectFd c.reErr c.errFds.1 c.errFds.2 2 t

def closeIf (val : Bool) (fd : ℕ) (t : Table) : Table := if val then close t fd else t

/-- The branch of the program, where the other end of the first pipe reports success. -/
def parentBranch (c : Call) (t : Table) : Table :=
  let t := close t c.fds.2
  let t := closeIf c.reIn c.inFds.1 t
  let t := closeIf c.reOut c.outFds.2 t
  let t := closeIf c.reErr c.errFds.2 t
  close t c.fds.1

end Source

section Ends

def Call.val (c : Call) : Stream → Bool
  | .stdin => c.reIn
  | .stdout => c.reOut
  | .stderr => c.reErr

/-- The descriptor that becomes `_stdin`, `_stdout` or `_stderr`. -/
def Call.kept (c : Call) : Stream → ℕ
  | .stdin => c.inFds.2
  | .stdout => c.outFds.1
  | .stderr => c.errFds.1

/-- The other end of the same pipe. -/
def Call.handed (c : Call) : Stream → ℕ
  | .stdin => c.inFds.1
  | .stdout => c.outFds.2
  | .stderr => c.errFds.2

/-- The descriptor number of the stream. -/
def Stream.fileno : Stream → ℕ
  | .stdin => 0
  | .stdout => 1
  | .stderr => 2

def Stream.pipe (x : Stream) (number : ℕ) : ℕ := number + 1 + x.fileno

/-- The program keeps the end to write to stdin and those to read from the others. -/
def Stream.keptFile (x : Stream) (number : ℕ) : File :=
  .pipeEnd (x.pipe number) (decide (x = .stdin))

def Stream.handedFile (x : Stream) (number : ℕ) : File :=
  .pipeEnd (x.pipe number) (decide (x ≠ .stdin))

def Call.ends (c : Call) (number : ℕ) : List End :=
  ([.stdin, .stdout, .stderr].filter c.val).map fun x => ⟨x, c.kept x, x.keptFile number⟩

/-- A call of `run` that succeeds. -/
def next (s : State) (c : Call) : Option State := do
  let t ← openPipes c s.parent s.pipes
  some {
    parent := parentBranch c t
    children := s.children ++ [exec (childBranch c t)]
    pipes := s.pipes + 4
    redirected := s.redirected ++ c.ends s.pipes }

end Ends

/-- Each end is open in the program only, and once it has closed its end of a stdin
no process can write to that pipe. -/
structure Private (s : State) : Prop where
  parent : ∀ r ∈ s.redirected, HasEnd s.parent r.fd ⟨r.file, false⟩
  children : ∀ r ∈ s.redirected, ∀ t ∈ s.children, Absent t r.file
  eof : ∀ r ∈ s.redirected, r.stream = .stdin →
    ∀ t ∈ close s.parent r.fd :: s.children, Absent t r.file

/-- The call redirects the stream of this descriptor number. -/
def Call.Replaces (c : Call) (fd : ℕ) : Prop := ∃ x : Stream, c.val x = true ∧ x.fileno = fd

/-- The call replaces in its child every end that the program has kept so far. -/
def ReplacesKept (s : State) (c : Call) : Prop := ∀ r ∈ s.redirected, c.Replaces r.fd

section Stages

variable {t t' : Table} {val : Bool} {fds : ℕ × ℕ} {number : ℕ} {file : File}
  {fd closed source target : ℕ} {d : Descriptor}

theorem below_redirect (hbelow : Below number t) (h : redirect val t fds number = some t') :
    Below (number + 1) t' := by
  unfold redirect at h
  split at h
  · exact hbelow.pipe h
  · cases h
    exact hbelow.mono (Nat.le_succ number)

theorem hasEnd_of_redirect (hend : HasEnd t fd d) (hbelow : Below number t)
    (h : redirect val t fds number = some t') : HasEnd t' fd d := by
  unfold redirect at h
  split at h
  · exact hend.pipe hbelow h
  · cases h
    exact hend

theorem hasEnd_redirect (hbelow : Below number t) (h : redirect val t fds number = some t')
    (hval : val = true) :
    HasEnd t' fds.1 ⟨.pipeEnd number false, false⟩ ∧
      HasEnd t' fds.2 ⟨.pipeEnd number true, false⟩ := by
  unfold redirect at h
  rw [if_pos hval] at h
  exact hasEnd_pipe hbelow h

theorem below_redirectFd (h : Below number t) :
    Below number (redirectFd val closed source target t) := by
  unfold redirectFd
  split
  · exact (h.close closed).dup2 source target
  · exact h

theorem absent_redirectFd (h : Absent t file) :
    Absent (redirectFd val closed source target t) file := by
  unfold redirectFd
  split
  · exact (h.close closed).dup2 source target
  · exact h

theorem only_redirectFd (h : Only t file fd) (hsource : val = true → source ≠ fd) :
    Only (redirectFd val closed source target t) file fd := by
  unfold redirectFd
  split
  · rename_i hval
    exact (h.close closed).dup2 (hsource hval) target
  · exact h

theorem absent_of_closed (h : Only t file closed) (hval : val = true) :
    Absent (redirectFd val closed source target t) file := by
  unfold redirectFd
  rw [if_pos hval]
  exact h.absent_close.dup2 source target

theorem absent_of_target (h : Only t file target) (hval : val = true)
    (hopen : (t source).isSome) (hclosed : source ≠ closed) (hne : source ≠ target) :
    Absent (redirectFd val closed source target t) file := by
  unfold redirectFd
  rw [if_pos hval]
  apply (h.close closed).absent_dup2 _ hne
  rw [close_of_ne hclosed]
  exact hopen

theorem isSome_redirectFd (h : (t fd).isSome) (hclosed : val = true → fd ≠ closed) :
    (redirectFd val closed source target t fd).isSome := by
  unfold redirectFd
  split
  · rename_i hval
    apply dup2_isSome
    rw [close_of_ne (hclosed hval)]
    exact h
  · exact h

theorem redirectFd_of_ne (hclosed : val = true → fd ≠ closed) (htarget : val = true → fd ≠ target) :
    redirectFd val closed source target t fd = t fd := by
  unfold redirectFd
  split
  · rename_i hval
    rw [dup2_of_ne (htarget hval), close_of_ne (hclosed hval)]
  · rfl

theorem hasEnd_closeIf (h : HasEnd t fd d) (hne : val = true → fd ≠ closed) :
    HasEnd (closeIf val closed t) fd d := by
  unfold closeIf
  split
  · rename_i hval
    exact h.close (hne hval)
  · exact h

theorem below_closeIf (h : Below number t) : Below number (closeIf val closed t) := by
  unfold closeIf
  split
  · exact h.close closed
  · exact h

end Stages

/-- The table at the fork of a call: the old ends and those of the new pipes. -/
structure Forking (c : Call) (number : ℕ) (parent t : Table) : Prop where
  below : Below (number + 4) t
  old : ∀ fd d, HasEnd parent fd d → HasEnd t fd d
  statusRead : HasEnd t c.fds.1 ⟨.pipeEnd number false, true⟩
  statusWrite : HasEnd t c.fds.2 ⟨.pipeEnd number true, true⟩
  kept : ∀ x, c.val x = true → HasEnd t (c.kept x) ⟨x.keptFile number, false⟩
  handed : ∀ x, c.val x = true → HasEnd t (c.handed x) ⟨x.handedFile number, false⟩

section Forking

variable {c : Call} {number : ℕ} {parent t : Table}

theorem forking_openPipes (hbelow : Below number parent)
    (h : openPipes c parent number = some t) : Forking c number parent t := by
  unfold openPipes at h
  obtain ⟨t1, h1, h⟩ := Option.bind_eq_some_iff.mp h
  obtain ⟨t2, h2, h⟩ := Option.bind_eq_some_iff.mp h
  obtain ⟨t3, h3, h4⟩ := Option.bind_eq_some_iff.mp h
  have b1 : Below (number + 1) t1 := hbelow.pipe h1
  have b2 : Below (number + 2) t2 := below_redirect b1 h2
  have b3 : Below (number + 3) t3 := below_redirect b2 h3
  -- an end that exists before a pipe is opened is there at the fork
  have e3 : ∀ {fd d}, HasEnd t3 fd d → HasEnd t fd d := fun e => hasEnd_of_redirect e b3 h4
  have e2 : ∀ {fd d}, HasEnd t2 fd d → HasEnd t fd d := fun e => e3 (hasEnd_of_redirect e b2 h3)
  have e1 : ∀ {fd d}, HasEnd t1 fd d → HasEnd t fd d := fun e => e2 (hasEnd_of_redirect e b1 h2)
  have status := hasEnd_pipe hbelow h1
  constructor
  · exact below_redirect b3 h4
  · intro fd d hend
    exact e1 (hend.pipe hbelow h1)
  · exact e1 status.1
  · exact e1 status.2
  · intro x hx
    cases x with
    | stdin => exact e2 (hasEnd_redirect b1 h2 hx).2
    | stdout => exact e3 (hasEnd_redirect b2 h3 hx).1
    | stderr => exact (hasEnd_redirect b3 h4 hx).1
  · intro x hx
    cases x with
    | stdin => exact e2 (hasEnd_redirect b1 h2 hx).1
    | stdout => exact e3 (hasEnd_redirect b2 h3 hx).2
    | stderr => exact (hasEnd_redirect b3 h4 hx).2

/-- The end that is handed to the child is none that the program keeps. -/
theorem Forking.handed_ne_kept (h : Forking c number parent t) {x y : Stream}
    (hx : c.val x = true) (hy : c.val y = true) : c.handed x ≠ c.kept y := by
  apply (h.handed x hx).ne (h.kept y hy)
  cases x <;> cases y <;> simp [Stream.handedFile, Stream.keptFile, Stream.pipe, Stream.fileno]

theorem Forking.kept_ne_status (h : Forking c number parent t) {x : Stream}
    (hx : c.val x = true) : c.kept x ≠ c.fds.1 ∧ c.kept x ≠ c.fds.2 := by
  constructor
  · apply (h.kept x hx).ne h.statusRead
    simp
  · apply (h.kept x hx).ne h.statusWrite
    simp

theorem Forking.handed_ne_status (h : Forking c number parent t) {x : Stream}
    (hx : c.val x = true) : c.handed x ≠ c.fds.1 := by
  apply (h.handed x hx).ne h.statusRead
  simp

/-- The program closes none of the new ends that it keeps. -/
theorem Forking.kept_parentBranch (h : Forking c number parent t) {x : Stream}
    (hx : c.val x = true) :
    HasEnd (parentBranch c t) (c.kept x) ⟨x.keptFile number, false⟩ := by
  obtain ⟨hread, hwrite⟩ := h.kept_ne_status hx
  have hhanded : ∀ y, c.val y = true → c.kept x ≠ c.handed y := by
    intro y hy
    exact (h.handed_ne_kept hy hx).symm
  have h1 := (h.kept x hx).close hwrite
  have h2 := hasEnd_closeIf h1 (hhanded .stdin)
  have h3 := hasEnd_closeIf h2 (hhanded .stdout)
  exact (hasEnd_closeIf h3 (hhanded .stderr)).close hread

/-- The child closes the new ends that the program keeps. -/
theorem Forking.kept_childBranch (h : Forking c number parent t) {x : Stream}
    (hx : c.val x = true) : Absent (childBranch c t) (x.keptFile number) := by
  have honly : Only (close t c.fds.1) (x.keptFile number) (c.kept x) :=
    (h.kept x hx).only.close c.fds.1
  have hsource : ∀ y, c.val y = true → c.handed y ≠ c.kept x := by
    intro y hy
    exact h.handed_ne_kept hy hx
  cases x with
  | stdin => exact absent_redirectFd (absent_redirectFd (absent_of_closed honly hx))
  | stdout =>
    apply absent_redirectFd
    apply absent_of_closed _ hx
    exact only_redirectFd honly (hsource .stdin)
  | stderr =>
    apply absent_of_closed _ hx
    apply only_redirectFd _ (hsource .stdout)
    exact only_redirectFd honly (hsource .stdin)

section Replacing

variable {fd : ℕ} {d : Descriptor}

/-- A file whose descriptor is replaced is not open in the child. -/
theorem Forking.absent_of_replaces (h : Forking c number parent t) (hend : HasEnd t fd d)
    (hhanded : ∀ x, c.val x = true → fd ≠ c.handed x) (hrep : c.Replaces fd) :
    Absent (childBranch c t) d.file := by
  obtain ⟨x, hx, hfd⟩ := hrep
  subst hfd
  have honly : Only (close t c.fds.1) d.file x.fileno := hend.only.close c.fds.1
  have hsource : ∀ y, c.val y = true → c.handed y ≠ x.fileno := by
    intro y hy
    exact (hhanded y hy).symm
  have hopen : (close t c.fds.1 (c.handed x)).isSome := by
    rw [close_of_ne (h.handed_ne_status hx), (h.handed x hx).here]
    rfl
  have hclosed : ∀ y, c.val y = true → c.handed x ≠ c.kept y := by
    intro y hy
    exact h.handed_ne_kept hx hy
  cases x with
  | stdin =>
    have h1 := absent_of_target honly hx hopen (hclosed .stdin hx) (hsource .stdin hx)
    exact absent_redirectFd (absent_redirectFd h1)
  | stdout =>
    apply absent_redirectFd
    apply absent_of_target _ hx _ (hclosed .stdout hx) (hsource .stdout hx)
    · exact only_redirectFd honly (hsource .stdin)
    · exact isSome_redirectFd hopen (hclosed .stdin)
  | stderr =>
    apply absent_of_target _ hx _ (hclosed .stderr hx) (hsource .stderr hx)
    · apply only_redirectFd _ (hsource .stdout)
      exact only_redirectFd honly (hsource .stdin)
    · apply isSome_redirectFd _ (hclosed .stdout)
      exact isSome_redirectFd hopen (hclosed .stdin)

/-- What the child neither closes nor replaces is as it was at the fork. -/
theorem childBranch_of_ne (hstatus : fd ≠ c.fds.1) (hkept : ∀ x, c.val x = true → fd ≠ c.kept x)
    (hrep : ¬ c.Replaces fd) : childBranch c t fd = t fd := by
  have htarget : ∀ x, c.val x = true → fd ≠ x.fileno := by
    intro x hx heq
    exact hrep ⟨x, hx, heq.symm⟩
  calc
    childBranch c t fd = _ := redirectFd_of_ne (hkept .stderr) (htarget .stderr)
    _ = _ := redirectFd_of_ne (hkept .stdout) (htarget .stdout)
    _ = close t c.fds.1 fd := redirectFd_of_ne (hkept .stdin) (htarget .stdin)
    _ = t fd := close_of_ne hstatus

end Replacing

section Old

variable {fd : ℕ} {d : Descriptor}

/-- The descriptor of an old end is none of those of the new pipes. -/
theorem Forking.old_ne (h : Forking c number parent t) (hbelow : Below number parent)
    (hend : HasEnd parent fd d) {fd' pipe : ℕ} {write cloexec : Bool}
    (hnew : HasEnd t fd' ⟨.pipeEnd pipe write, cloexec⟩) (hpipe : number ≤ pipe) : fd ≠ fd' := by
  apply (h.old fd d hend).ne hnew
  intro heq
  subst heq
  exact absurd (hbelow fd _ pipe write hend.here rfl) (Nat.not_lt.mpr hpipe)

theorem Stream.le_pipe (x : Stream) (number : ℕ) : number ≤ x.pipe number := by
  unfold Stream.pipe
  omega

theorem Forking.old_ne_handed (h : Forking c number parent t) (hbelow : Below number parent)
    (hend : HasEnd parent fd d) {x : Stream} (hx : c.val x = true) : fd ≠ c.handed x :=
  h.old_ne hbelow hend (h.handed x hx) (x.le_pipe number)

theorem Forking.old_ne_kept (h : Forking c number parent t) (hbelow : Below number parent)
    (hend : HasEnd parent fd d) {x : Stream} (hx : c.val x = true) : fd ≠ c.kept x :=
  h.old_ne hbelow hend (h.kept x hx) (x.le_pipe number)

/-- Nor does the program close an end that it has kept before. -/
theorem Forking.old_parentBranch (h : Forking c number parent t) (hbelow : Below number parent)
    (hend : HasEnd parent fd d) : HasEnd (parentBranch c t) fd d := by
  have hread := h.old_ne hbelow hend h.statusRead (Nat.le_refl number)
  have hwrite := h.old_ne hbelow hend h.statusWrite (Nat.le_refl number)
  have hhanded : ∀ x, c.val x = true → fd ≠ c.handed x := by
    intro x hx
    exact h.old_ne_handed hbelow hend hx
  have h1 := (h.old fd d hend).close hwrite
  have h2 := hasEnd_closeIf h1 (hhanded .stdin)
  have h3 := hasEnd_closeIf h2 (hhanded .stdout)
  exact (hasEnd_closeIf h3 (hhanded .stderr)).close hread

/-- An old end whose descriptor is replaced is not open in the child. -/
theorem Forking.replaced_childBranch (h : Forking c number parent t)
    (hbelow : Below number parent) (hend : HasEnd parent fd d) (hrep : c.Replaces fd) :
    Absent (childBranch c t) d.file :=
  h.absent_of_replaces (h.old fd d hend) (fun _ hx => h.old_ne_handed hbelow hend hx) hrep

/-- An old end whose descriptor is not replaced stays open in the child. -/
theorem Forking.inherited_childBranch (h : Forking c number parent t)
    (hbelow : Below number parent) (hend : HasEnd parent fd d) (hrep : ¬ c.Replaces fd) :
    childBranch c t fd = some d := by
  have hstatus := h.old_ne hbelow hend h.statusRead (Nat.le_refl number)
  rw [childBranch_of_ne hstatus (fun _ hx => h.old_ne_kept hbelow hend hx) hrep]
  exact (h.old fd d hend).here

end Old

theorem Forking.below_parentBranch (h : Forking c number parent t) :
    Below (number + 4) (parentBranch c t) :=
  (below_closeIf (below_closeIf (below_closeIf (h.below.close _)))).close _

theorem Forking.below_childBranch (h : Forking c number parent t) :
    Below (number + 4) (childBranch c t) :=
  below_redirectFd (below_redirectFd (below_redirectFd (h.below.close _)))

end Forking

section Steps

/-- The numbers of the pipes that are open are below the next one. -/
structure Numbered (s : State) : Prop where
  parent : Below s.pipes s.parent
  children : ∀ t ∈ s.children, Below s.pipes t

variable {s s' : State} {c : Call}

theorem next_cases (hnum : Numbered s) (h : next s c = some s') :
    ∃ t, Forking c s.pipes s.parent t ∧ s' = {
      parent := parentBranch c t
      children := s.children ++ [exec (childBranch c t)]
      pipes := s.pipes + 4
      redirected := s.redirected ++ c.ends s.pipes } := by
  obtain ⟨t, ht, hs'⟩ := Option.bind_eq_some_iff.mp h
  exact ⟨t, forking_openPipes hnum.parent ht, (Option.some.inj hs').symm⟩

theorem Numbered.next (hnum : Numbered s) (h : next s c = some s') : Numbered s' := by
  obtain ⟨t, hfork, rfl⟩ := next_cases hnum h
  constructor
  · exact hfork.below_parentBranch
  · intro u hu
    rcases List.mem_append.mp hu with hu | hu
    · exact (hnum.children u hu).mono (Nat.le_add_right _ _)
    · obtain rfl := List.mem_singleton.mp hu
      exact hfork.below_childBranch.exec

/-- A new end of a call: its stream is redirected, and it is kept by the program. -/
theorem mem_ends {r : End} {number : ℕ} (h : r ∈ c.ends number) :
    ∃ x, c.val x = true ∧ r = ⟨x, c.kept x, x.keptFile number⟩ := by
  obtain ⟨x, hx, hr⟩ := List.mem_map.mp h
  exact ⟨x, (List.mem_filter.mp hx).2, hr.symm⟩

/-- What makes the ends private, without the end of file that follows. -/
theorem Private.of_ends (hparent : ∀ r ∈ s.redirected, HasEnd s.parent r.fd ⟨r.file, false⟩)
    (hchildren : ∀ r ∈ s.redirected, ∀ t ∈ s.children, Absent t r.file) : Private s := by
  refine ⟨hparent, hchildren, fun r hr _ t ht => ?_⟩
  rcases List.mem_cons.mp ht with rfl | ht
  · exact (hparent r hr).only.absent_close
  · exact hchildren r hr t ht

/-- A call that replaces the ends kept before in its child leaves all ends private. -/
theorem Private.next (hnum : Numbered s) (hpriv : Private s) (hrep : ReplacesKept s c)
    (h : next s c = some s') : Private s' := by
  obtain ⟨t, hfork, rfl⟩ := next_cases hnum h
  apply Private.of_ends
  · intro r hr
    rcases List.mem_append.mp hr with hr | hr
    · exact hfork.old_parentBranch hnum.parent (hpriv.parent r hr)
    · obtain ⟨x, hx, rfl⟩ := mem_ends hr
      exact hfork.kept_parentBranch hx
  · intro r hr u hu
    rcases List.mem_append.mp hr with hr | hr
    · rcases List.mem_append.mp hu with hu | hu
      · exact hpriv.children r hr u hu
      · obtain rfl := List.mem_singleton.mp hu
        exact (hfork.replaced_childBranch hnum.parent (hpriv.parent r hr) (hrep r hr)).exec
    · obtain ⟨x, hx, rfl⟩ := mem_ends hr
      rcases List.mem_append.mp hu with hu | hu
      · -- the children that run already have no pipe of this number
        exact (hnum.children u hu).absent (x.le_pipe s.pipes) _
      · obtain rfl := List.mem_singleton.mp hu
        exact (hfork.kept_childBranch hx).exec

/-- A call that does not replace one of them lets its child inherit it. -/
theorem not_private_next (hnum : Numbered s) (hpriv : Private s) (hrep : ¬ ReplacesKept s c)
    (h : next s c = some s') : ¬ Private s' := by
  obtain ⟨t, hfork, rfl⟩ := next_cases hnum h
  unfold ReplacesKept at hrep
  push Not at hrep
  obtain ⟨r, hr, hnot⟩ := hrep
  intro hpriv'
  have hhere := hfork.inherited_childBranch hnum.parent (hpriv.parent r hr) hnot
  have hchild : exec (childBranch c t) r.fd = some ⟨r.file, false⟩ :=
    exec_eq_some_iff.mpr ⟨hhere, rfl⟩
  exact hpriv'.children r (List.mem_append_left _ hr) _ (by simp) r.fd _ hchild rfl

end Steps

/-- Over successful calls the redirected ends stay private if and only if every call
replaces, in its child, the descriptors of all ends that were kept before it. -/
theorem private_iff (opened : ℕ → Option (ℕ × Bool)) (calls : List Call) :
    Throughout next Private (init opened) calls ↔
      StepsMeet next ReplacesKept (init opened) calls := by
  have hinit : Numbered (init opened) ∧ Private (init opened) := by
    constructor
    · constructor
      · intro fd d pipe write hd hfile
        obtain ⟨file, -, rfl⟩ := Option.map_eq_some_iff.mp hd
        cases hfile
      · intro t ht
        cases ht
    · apply Private.of_ends
      · intro r hr
        cases hr
      · intro r hr
        cases hr
  apply throughout_iff_stepsMeet (I := fun s => Numbered s ∧ Private s) _ _ _ hinit
  · intro s c s' hs hrep h
    exact ⟨hs.1.next h, hs.2.next hs.1 hrep h⟩
  · intro s hs
    exact hs.2
  · intro s c s' hs h hrep
    exact not_private_next hs.1 hs.2 hrep h

/-- With stdin, stdout and stderr open, a child with a redirected stdin and then one without. -/
theorem end_inherited :
    ¬ ∀ (opened : ℕ → Option (ℕ × Bool)) (calls : List Call),
      Throughout next Private (init opened) calls := by
  intro h
  let opened : ℕ → Option (ℕ × Bool) := fun fd => if fd ≤ 2 then some (fd, false) else none
  let first : Call := ⟨true, false, false, (3, 4), (5, 6), (0, 0), (0, 0)⟩
  let second : Call := ⟨false, false, false, (3, 4), (0, 0), (0, 0), (0, 0)⟩
  have hall := ((h opened [first, second]).2 _ rfl).2 _ rfl
  -- the second child has the writing end, at the descriptor of the program
  have hmem : (⟨.stdin, 6, .pipeEnd 1 true⟩ : End) ∈ [⟨.stdin, 6, .pipeEnd 1 true⟩] :=
    List.mem_singleton_self _
  have hchild := hall.start.children _ hmem _
    (List.mem_append_right _ (List.mem_singleton_self _)) 6 ⟨.pipeEnd 1 true, false⟩ rfl
  exact hchild rfl

end BoxUtils.Redirect
