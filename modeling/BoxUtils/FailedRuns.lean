import BoxUtils.Redirect
import BoxUtils.SubProcess

/-!
Calls of `SubProcess::run` whose `fork` or `execvp` fails. The clean-up behind a failed
`fork` closes the arrays of the pipes as they are, with the placeholders of those that were
not created, before it reads `errno`. After a failed `execvp` all streams of the object are
closed, which an earlier call may have opened.
-/
namespace BoxUtils.Redirect

open Descriptors

/-- What a system call of the program reads and changes. -/
structure Process where
  table : Table
  errno : ℤ

/-- The descriptors of `_stdin`, `_stdout` and `_stderr`, where they are not null. -/
abbrev Streams := Stream → Option ℕ

inductive Failure
  | fork (errno : ℤ)
  | execvp (errno : ℤ)

def Failure.errno : Failure → ℤ
  | .fork errno => errno
  | .execvp errno => errno

inductive Ended
  | returns (table : Table) (streams : Streams)
  | throws (code : ℤ) (table : Table) (streams : Streams)

section Source

/-- `close` of the program, which may get any number. -/
def closeFd (p : Process) (fd : ℤ) : Process :=
  if 0 ≤ fd ∧ (p.table fd.toNat).isSome then { p with table := close p.table fd.toNat }
  else { p with errno := EBADF }

/-- What the array of a stream has when the call forks. -/
def array (val : Bool) (fds : ℕ × ℕ) : ℤ × ℤ := if val then (fds.1, fds.2) else (-1, -1)

/-- What is closed when `fork` fails, in this order. -/
def Call.cleanup (c : Call) : List ℤ :=
  let inFds := array c.reIn c.inFds
  let outFds := array c.reOut c.outFds
  let errFds := array c.reErr c.errFds
  [c.fds.1, c.fds.2, inFds.2, inFds.1, outFds.2, outFds.1, errFds.2, errFds.1]

def forkFailed (c : Call) (t : Table) (streams : Streams) (errno : ℤ) : Ended :=
  let p := c.cleanup.foldl closeFd ⟨t, errno⟩
  .throws p.errno p.table streams

/-- The streams that the program opens on the ends it keeps. -/
def fdopen (c : Call) (streams : Streams) : Streams :=
  fun x => if c.val x then some (c.kept x) else streams x

/-- The macro `FCLOSE`. -/
def fclose (t : Table) : Option ℕ → Table
  | some fd => close t fd
  | none => t

def closeStreams (t : Table) (streams : Streams) : Table :=
  fclose (fclose (fclose t (streams .stdin)) (streams .stdout)) (streams .stderr)

/-- The error code of the child arrives if its descriptor is still the end of the first
pipe; where it is not, no process can write to that pipe and `read` has no bytes. -/
def Reports (c : Call) (t : Table) (number : ℕ) : Prop :=
  (childBranch c t c.fds.2).map Descriptor.file = some (.pipeEnd number true)

instance (c : Call) (t : Table) (number : ℕ) : Decidable (Reports c t number) :=
  inferInstanceAs (Decidable (_ = _))

def execFailed (c : Call) (t : Table) (number : ℕ) (streams : Streams) (errno : ℤ) : Ended :=
  let streams := fdopen c streams
  let table := parentBranch c t
  if Reports c t number then
    .throws errno (closeStreams table streams) fun _ => none
  else .returns table streams

/-- A call of `run` that fails behind the creation of its pipes. -/
def run (c : Call) (t : Table) (number : ℕ) (streams : Streams) (failure : Failure) :
    Option Ended :=
  (openPipes c t number).map fun t =>
    match failure with
    | .fork errno => forkFailed c t streams errno
    | .execvp errno => execFailed c t number streams errno

end Source

/-- A call that throws has restored the table, and it throws the code of the failure. -/
def CleansUp (c : Call) (t : Table) (number : ℕ) (streams : Streams) (failure : Failure) : Prop :=
  ∀ code table streams', run c t number streams failure = some (.throws code table streams') →
    table = t ∧ code = failure.errno

/-- No placeholder is closed behind a failed `fork`; a child whose `execvp` fails has lost
its end of the first pipe, or no stream is closed that was open before the call. -/
def Tidy (c : Call) (t : Table) (streams : Streams) : Failure → Prop
  | .fork errno => (∀ x, c.val x = true) ∨ errno = EBADF
  | .execvp _ => c.Replaces c.fds.2 ∨
      ∀ x fd, c.val x = false → streams x = some fd → t fd = none

/-- What a pipe adds to the table, if it is created. -/
def created (val : Bool) (fds : ℕ × ℕ) : List ℕ := if val then [fds.2, fds.1] else []

def Call.created (c : Call) : List ℕ :=
  [c.fds.1, c.fds.2] ++ (Redirect.created c.reIn c.inFds ++
    (Redirect.created c.reOut c.outFds ++ Redirect.created c.reErr c.errFds))

section Created

variable {c : Call} {t t' : Table} {val : Bool} {fds : ℕ × ℕ} {fd number : ℕ}

theorem Stream.exists_iff {p : Stream → Prop} : (∃ x, p x) ↔ p .stdin ∨ p .stdout ∨ p .stderr := by
  constructor
  · rintro ⟨x, hx⟩
    cases x with
    | stdin => exact Or.inl hx
    | stdout => exact Or.inr (Or.inl hx)
    | stderr => exact Or.inr (Or.inr hx)
  · rintro (h | h | h)
    · exact ⟨_, h⟩
    · exact ⟨_, h⟩
    · exact ⟨_, h⟩

theorem mem_created_pipe :
    fd ∈ created val fds ↔ val = true ∧ (fd = fds.1 ∨ fd = fds.2) := by
  cases val <;> simp [created, or_comm]

theorem mem_created : fd ∈ c.created ↔ fd = c.fds.1 ∨ fd = c.fds.2 ∨
    ∃ x, c.val x = true ∧ (fd = c.kept x ∨ fd = c.handed x) := by
  simp only [Call.created, List.mem_append, mem_created_pipe, Stream.exists_iff, Call.val,
    Call.kept, Call.handed, List.mem_cons, List.not_mem_nil, or_false, or_assoc]
  rw [or_comm (a := fd = c.inFds.1)]

theorem opens_redirect (h : redirect val t fds number = some t') :
    Opens t t' (created val fds) := by
  unfold redirect at h
  unfold created
  split at h
  case isTrue hval =>
    rw [if_pos hval]
    exact (opens_pipe h).perm (List.Perm.swap _ _ _)
  case isFalse hval =>
    rw [if_neg hval]
    cases h
    exact Opens.refl t

theorem opens_openPipes (h : openPipes c t number = some t') : Opens t t' c.created := by
  obtain ⟨t1, h1, h⟩ := Option.bind_eq_some_iff.mp h
  obtain ⟨t2, h2, h⟩ := Option.bind_eq_some_iff.mp h
  obtain ⟨t3, h3, h4⟩ := Option.bind_eq_some_iff.mp h
  have later := (opens_redirect h3).append (opens_redirect h4)
  exact (opens_pipe h1).append ((opens_redirect h2).append later)

end Created

section Fork

variable {c : Call} {t t' : Table} {p : Process} {fd : ℤ} {l : List ℤ}

theorem clears_closeFd (p : Process) (fd : ℤ) :
    Clears p.table (closeFd p fd).table {fd' | (fd' : ℤ) = fd} := by
  unfold closeFd
  constructor
  · rintro fd' rfl
    split
    · exact (clears_close _ _).gone fd' rfl
    case isFalse hopen => simpa using hopen
  · intro fd' hfd
    split
    case isTrue hopen =>
      apply close_of_ne
      intro heq
      exact hfd (heq ▸ Int.toNat_of_nonneg hopen.1)
    · rfl

theorem clears_closing (p : Process) (l : List ℤ) :
    Clears p.table (l.foldl closeFd p).table {fd | (fd : ℤ) ∈ l} := by
  induction l generalizing p with
  | nil => exact ⟨nofun, fun _ _ => rfl⟩
  | cons a l ih =>
    have hall := (clears_closeFd p a).trans (ih (closeFd p a))
    constructor
    · intro fd hfd
      exact hall.gone fd (List.mem_cons.mp hfd)
    · intro fd hfd
      exact hall.rest fd fun hmem => hfd (List.mem_cons.mpr hmem)

/-- Closing distinct open descriptors leaves `errno` alone. -/
theorem errno_closing {l : List ℕ} (hnodup : l.Nodup) (hlive : ∀ fd ∈ l, p.table fd ≠ none) :
    ((l.map Nat.cast).foldl closeFd p).errno = p.errno := by
  induction l generalizing p with
  | nil => rfl
  | cons a l ih =>
    obtain ⟨hnot, hnodup⟩ := List.nodup_cons.mp hnodup
    have hopen : closeFd p a = { p with table := close p.table a } := by
      apply if_pos
      exact ⟨Int.natCast_nonneg a, Option.isSome_iff_ne_none.mpr (hlive a (List.mem_cons_self ..))⟩
    rw [List.map_cons, List.foldl_cons, ih hnodup]
    · rw [hopen]
    · intro fd hfd
      rw [hopen]
      change close p.table a fd ≠ none
      rw [close_of_ne (ne_of_mem_of_not_mem hfd hnot)]
      exact hlive fd (List.mem_cons_of_mem _ hfd)

/-- Once a call has failed, `errno` does not change any more. -/
theorem errno_of_failed (h : p.errno = EBADF) (l : List ℤ) :
    (l.foldl closeFd p).errno = EBADF := by
  induction l generalizing p with
  | nil => exact h
  | cons a l ih =>
    apply ih
    unfold closeFd
    split
    · exact h
    · rfl

theorem errno_of_placeholder (hmem : -1 ∈ l) (p : Process) :
    (l.foldl closeFd p).errno = EBADF := by
  obtain ⟨before, behind, rfl⟩ := List.append_of_mem hmem
  rw [List.foldl_append, List.foldl_cons]
  exact errno_of_failed rfl behind

theorem mem_cleanup {fd : ℕ} : (fd : ℤ) ∈ c.cleanup ↔ fd ∈ c.created := by
  have harray : ∀ val (fds : ℕ × ℕ),
      (fd : ℤ) = (array val fds).2 ∨ (fd : ℤ) = (array val fds).1 ↔
        fd ∈ created val fds := by
    intro val fds
    cases val
    · simp [array, created]
    · simp only [array, created, if_true, List.mem_cons, List.not_mem_nil, or_false,
        Int.natCast_inj]
  simp only [Call.cleanup, Call.created, List.mem_append, ← harray, List.mem_cons,
    List.not_mem_nil, or_false, or_assoc, Int.natCast_inj]

/-- Where all streams are redirected the arrays have no placeholder. -/
theorem cleanup_of_redirected (h : ∀ x, c.val x = true) : c.cleanup = c.created.map Nat.cast := by
  have hin : c.reIn = true := h .stdin
  have hout : c.reOut = true := h .stdout
  have herr : c.reErr = true := h .stderr
  simp [Call.cleanup, Call.created, created, array, hin, hout, herr]

theorem placeholder_mem_cleanup {x : Stream} (h : c.val x = false) : -1 ∈ c.cleanup := by
  cases x with
  | stdin =>
    have hval : c.reIn = false := h
    simp [Call.cleanup, array, hval]
  | stdout =>
    have hval : c.reOut = false := h
    simp [Call.cleanup, array, hval]
  | stderr =>
    have hval : c.reErr = false := h
    simp [Call.cleanup, array, hval]

/-- The table is restored in any case. -/
theorem table_forkFailed (h : Opens t t' c.created) (errno : ℤ) :
    (c.cleanup.foldl closeFd ⟨t', errno⟩).table = t := by
  apply (h.eq_iff (clears_closing ⟨t', errno⟩ c.cleanup) _).mpr
  · intro fd hfd
    exact h.free fd (mem_cleanup.mp hfd)
  · intro fd hfd
    exact mem_cleanup.mpr hfd

theorem redirected_iff :
    (c.reIn = true ∧ c.reOut = true ∧ c.reErr = true) ↔ ∀ x, c.val x = true := by
  constructor
  · rintro ⟨hin, hout, herr⟩ x
    cases x <;> assumption
  · exact fun hall => ⟨hall .stdin, hall .stdout, hall .stderr⟩

theorem errno_forkFailed (h : Opens t t' c.created) (errno : ℤ) :
    (c.cleanup.foldl closeFd ⟨t', errno⟩).errno =
      SubProcess.forkErrno c.reIn c.reOut c.reErr errno := by
  unfold SubProcess.forkErrno
  split
  case isTrue hall =>
    rw [cleanup_of_redirected (redirected_iff.mp hall)]
    exact errno_closing h.nodup h.live
  case isFalse hnot =>
    rw [redirected_iff, not_forall] at hnot
    obtain ⟨x, hx⟩ := hnot
    have hmem := placeholder_mem_cleanup (Bool.eq_false_of_not_eq_true hx)
    exact errno_of_placeholder hmem _

/-- The calls that know the pids only throw the same error behind a failed `fork` as those
that know the descriptors. -/
theorem forkFailed_run {t' : Table} (h : Opens t t' c.created) (streams : Streams) (errno : ℤ)
    (s : SubProcess.State) (o : ℕ) (file : String) (args : List String) :
    ∃ code, forkFailed c t' streams errno = .throws code t streams ∧
      (SubProcess.run s o (file :: args) c.reIn c.reOut c.reErr (.failed errno)).map Prod.snd =
        some (.error (.osError code none)) := by
  refine ⟨SubProcess.forkErrno c.reIn c.reOut c.reErr errno, ?_, rfl⟩
  rw [forkFailed, table_forkFailed h, errno_forkFailed h]

theorem errno_forkFailed_iff (h : Opens t t' c.created) {errno : ℤ} :
    (c.cleanup.foldl closeFd ⟨t', errno⟩).errno = errno ↔
      (∀ x, c.val x = true) ∨ errno = EBADF := by
  rw [errno_forkFailed h, SubProcess.forkErrno, ← redirected_iff]
  split
  case isTrue hall => exact iff_of_true rfl (Or.inl hall)
  case isFalse hnot =>
    constructor
    · exact fun heq => Or.inr heq.symm
    · rintro (hall | heq)
      · exact absurd hall hnot
      · exact heq.symm

end Fork

section Execvp

variable {c : Call} {t t' : Table} {number : ℕ} {streams : Streams}

theorem clears_closeIf (val : Bool) (fd : ℕ) (t : Table) :
    Clears t (closeIf val fd t) {fd' | val = true ∧ fd' = fd} := by
  cases val with
  | false => exact ⟨fun _ hfd => Bool.noConfusion hfd.1, fun _ _ => rfl⟩
  | true =>
    constructor
    · intro fd' hfd
      exact (clears_close t fd).gone fd' hfd.2
    · intro fd' hfd
      exact close_of_ne fun heq => hfd ⟨rfl, heq⟩

theorem clears_fclose (t : Table) (stream : Option ℕ) :
    Clears t (fclose t stream) {fd | stream = some fd} := by
  cases stream with
  | none => exact ⟨fun _ hfd => absurd hfd.symm (Option.some_ne_none _), fun _ _ => rfl⟩
  | some fd =>
    constructor
    · intro fd' hfd
      exact (clears_close t fd).gone fd' (Option.some.inj hfd).symm
    · intro fd' hfd
      exact close_of_ne fun heq => hfd (congrArg some heq.symm)

theorem clears_parentBranch (c : Call) (t : Table) : Clears t (parentBranch c t)
    {fd | fd = c.fds.1 ∨ fd = c.fds.2 ∨ ∃ x, c.val x = true ∧ fd = c.handed x} := by
  have hin := (clears_close t c.fds.2).trans (clears_closeIf c.reIn c.inFds.1 _)
  have hout := hin.trans (clears_closeIf c.reOut c.outFds.2 _)
  have herr := hout.trans (clears_closeIf c.reErr c.errFds.2 _)
  have hall := herr.trans (clears_close _ c.fds.1)
  apply hall.of_iff
  intro fd
  simp only [Set.mem_union, Set.mem_singleton_iff, Set.mem_ofPred_eq, Stream.exists_iff, Call.val,
    Call.handed]
  tauto

theorem clears_closeStreams (t : Table) (streams : Streams) :
    Clears t (closeStreams t streams) {fd | ∃ x, streams x = some fd} := by
  have hin := clears_fclose t (streams .stdin)
  have hout := hin.trans (clears_fclose _ (streams .stdout))
  apply (hout.trans (clears_fclose _ (streams .stderr))).of_iff
  intro fd
  simp only [Set.mem_union, Set.mem_ofPred_eq, Stream.exists_iff, or_assoc]

/-- What is closed in the end: the pipes of the call, and the streams it has not replaced. -/
theorem clears_execFailed (c : Call) (t : Table) (streams : Streams) :
    Clears t (closeStreams (parentBranch c t) (fdopen c streams))
      {fd | fd ∈ c.created ∨ ∃ x, c.val x = false ∧ streams x = some fd} := by
  apply ((clears_parentBranch c t).trans (clears_closeStreams _ _)).of_iff
  intro fd
  have hkept : (∃ x, fdopen c streams x = some fd) ↔
      (∃ x, c.val x = true ∧ fd = c.kept x) ∨ ∃ x, c.val x = false ∧ streams x = some fd := by
    rw [← exists_or]
    apply exists_congr
    intro x
    unfold fdopen
    cases c.val x
    · simp
    · simp [eq_comm]
  simp only [Set.mem_union, Set.mem_ofPred_eq, hkept, mem_created, and_or_left, exists_or,
    or_assoc]
  rw [or_left_comm (a := ∃ x, c.val x = true ∧ fd = c.handed x)]

/-- The child reports unless it has replaced the descriptor to report with. -/
theorem reports_iff (hbelow : Below number t) (h : openPipes c t number = some t') :
    Reports c t' number ↔ ¬ c.Replaces c.fds.2 := by
  have hfork := forking_openPipes hbelow h
  unfold Reports
  constructor
  · intro hreports hrep
    obtain ⟨d, hd, hfile⟩ := Option.map_eq_some_iff.mp hreports
    have hhanded : ∀ x, c.val x = true → c.fds.2 ≠ c.handed x := by
      intro x hx
      apply (hfork.statusWrite).ne (hfork.handed x hx)
      simp
    exact hfork.absent_of_replaces hfork.statusWrite hhanded hrep _ d hd hfile
  · intro hrep
    have hstatus : c.fds.2 ≠ c.fds.1 := by
      apply hfork.statusWrite.ne hfork.statusRead
      simp
    have hkept : ∀ x, c.val x = true → c.fds.2 ≠ c.kept x :=
      fun x hx => (hfork.kept_ne_status hx).2.symm
    rw [childBranch_of_ne hstatus hkept hrep, hfork.statusWrite.here]
    rfl

end Execvp

section Main

variable {c : Call} {t : Table} {number : ℕ} {streams : Streams}

theorem cleansUp_fork_iff {t' : Table} (h : openPipes c t number = some t') (errno : ℤ) :
    CleansUp c t number streams (.fork errno) ↔ (∀ x, c.val x = true) ∨ errno = EBADF := by
  have hopens := opens_openPipes h
  rw [← errno_forkFailed_iff hopens]
  unfold CleansUp run
  rw [h, Option.map_some]
  constructor
  · intro hclean
    exact (hclean _ _ _ rfl).2
  · intro heq code table streams' hthrows
    cases hthrows
    exact ⟨table_forkFailed hopens errno, heq⟩

theorem cleansUp_execvp_iff (hbelow : Below number t) {t' : Table}
    (h : openPipes c t number = some t') (errno : ℤ) :
    CleansUp c t number streams (.execvp errno) ↔ c.Replaces c.fds.2 ∨
      ∀ x fd, c.val x = false → streams x = some fd → t fd = none := by
  have hopens := opens_openPipes h
  have hreports := reports_iff hbelow h
  unfold CleansUp run
  rw [h, Option.map_some]
  dsimp only [execFailed]
  by_cases hrep : c.Replaces c.fds.2
  · rw [if_neg fun hsent => hreports.mp hsent hrep]
    exact ⟨fun _ => Or.inl hrep, nofun⟩
  · rw [if_pos (hreports.mpr hrep)]
    have hclears := clears_execFailed c t' streams
    have hiff := hopens.eq_iff hclears fun _ hfd => Or.inl hfd
    constructor
    · intro hclean
      have hnone := hiff.mp (hclean _ _ _ rfl).1
      exact Or.inr fun x fd hval hfd => hnone fd (Or.inr ⟨x, hval, hfd⟩)
    · rintro (hreplaces | hclosed) code table streams' hthrows
      · exact absurd hreplaces hrep
      · cases hthrows
        refine ⟨hiff.mpr ?_, rfl⟩
        rintro fd (hfd | ⟨x, hval, hfd⟩)
        · exact hopens.free fd hfd
        · exact hclosed x fd hval hfd

end Main

/-- For every table, in which no pipe has a number of the new ones, every redirection and
every failure behind the creation of the pipes. -/
theorem cleansUp_iff (c : Call) (t : Table) (number : ℕ) (streams : Streams) (failure : Failure)
    (hbelow : Below number t) (hpipes : (openPipes c t number).isSome) :
    CleansUp c t number streams failure ↔ Tidy c t streams failure := by
  obtain ⟨t', h⟩ := Option.isSome_iff_exists.mp hpipes
  cases failure with
  | fork errno => exact cleansUp_fork_iff h errno
  | execvp errno => exact cleansUp_execvp_iff hbelow h errno

/-- A table with stdin, stdout and stderr, and perhaps the writing end of a pipe. -/
def standard (kept : Option ℕ) : Table := fun fd =>
  if fd ≤ 2 then some ⟨.other fd, false⟩
  else if kept = some fd then some ⟨.pipeEnd 0 true, false⟩
  else none

theorem below_standard (kept : Option ℕ) : Below 1 (standard kept) := by
  intro fd d pipe write hd hfile
  unfold standard at hd
  split at hd
  · cases hd
    cases hfile
  · split at hd
    · cases hd
      cases hfile
      exact Nat.zero_lt_one
    · cases hd

/-- `fork` fails with `EAGAIN` where all streams are redirected. -/
theorem cleansUp_redirected :
    CleansUp ⟨true, true, true, (3, 4), (5, 6), (7, 8), (9, 10)⟩ (standard none) 1
      (fun _ => none) (.fork 11) := by
  apply (cleansUp_iff _ _ _ _ _ (below_standard none) rfl).mpr
  left
  intro x
  cases x <;> rfl

/-- It fails with `EAGAIN` where none is; `execvp` fails with `ENOENT` in a call behind
one that has redirected stdin. -/
theorem not_cleansUp :
    ¬ CleansUp ⟨false, false, false, (3, 4), (0, 0), (0, 0), (0, 0)⟩ (standard none) 1
      (fun _ => none) (.fork 11) ∧
    ¬ CleansUp ⟨false, false, false, (3, 4), (0, 0), (0, 0), (0, 0)⟩ (standard (some 5)) 1
      (fun x => if x = .stdin then some 5 else none) (.execvp 2) := by
  constructor
  · intro hclean
    have hcode := (hclean EBADF _ _ rfl).2
    cases hcode
  · intro hclean
    have htable := (hclean 2 _ _ rfl).1
    have hend := congrFun htable 5
    cases hend

end BoxUtils.Redirect
