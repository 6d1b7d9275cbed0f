import Mathlib.Data.Set.Insert
import Mathlib.Data.Nat.Notation
import Mathlib.Tactic.Common

/-!
Descriptor tables of processes: opening a pipe, closing, duplicating, and what
a successful exec leaves open. The facts about a table that are followed through
these operations are that a file is open at one descriptor at most, and that it
is not open at all.
-/
namespace BoxUtils.Descriptors

open Function

/-- What a descriptor refers to: an end of a numbered pipe, or another file. -/
inductive File
  | pipeEnd (pipe : ℕ) (write : Bool)
  | other (name : ℕ)
  deriving DecidableEq, Repr

structure Descriptor where
  file : File
  cloexec : Bool
  deriving DecidableEq, Repr

abbrev Table := ℕ → Option Descriptor

/-- The error of a call on a number that is not open. -/
def EBADF : ℤ := 9

section Operations

def close (t : Table) (fd : ℕ) : Table := update t fd none

/-- Without effect when `oldfd` is not open, and when both are the same. -/
def dup2 (t : Table) (oldfd newfd : ℕ) : Table :=
  match t oldfd with
  | none => t
  | some d => if oldfd = newfd then t else update t newfd (some { d with cloexec := false })

/-- What is open after a successful exec. -/
def exec (t : Table) : Table := fun fd => (t fd).filter fun d => !d.cloexec

/-- The pipe with this number; the kernel picks two unused descriptors. -/
def pipe (t : Table) (fds : ℕ × ℕ) (number : ℕ) (cloexec : Bool) : Option Table :=
  if fds.1 ≠ fds.2 ∧ t fds.1 = none ∧ t fds.2 = none then
    some (update (update t fds.1 (some ⟨.pipeEnd number false, cloexec⟩))
      fds.2 (some ⟨.pipeEnd number true, cloexec⟩))
  else none

end Operations

/-- The file is open at this descriptor at most. -/
def Only (t : Table) (file : File) (fd : ℕ) : Prop :=
  ∀ fd' d, t fd' = some d → d.file = file → fd' = fd

def Absent (t : Table) (file : File) : Prop := ∀ fd d, t fd = some d → d.file ≠ file

/-- The descriptor is open here, and no other one refers to its file. -/
structure HasEnd (t : Table) (fd : ℕ) (d : Descriptor) : Prop where
  here : t fd = some d
  only : Only t d.file fd

/-- All pipes of the table have lower numbers. -/
def Below (number : ℕ) (t : Table) : Prop :=
  ∀ fd d pipe write, t fd = some d → d.file = .pipeEnd pipe write → pipe < number

variable {t t' : Table} {file : File} {fd fd' oldfd newfd : ℕ} {d d' : Descriptor}

section Presence

theorem close_of_ne (h : fd ≠ fd') : close t fd' fd = t fd := update_of_ne h _ _

/-- Either nothing changes, or the new descriptor becomes a copy. -/
theorem dup2_cases (t : Table) (oldfd newfd : ℕ) : dup2 t oldfd newfd = t ∨
    oldfd ≠ newfd ∧ ∃ e, t oldfd = some e ∧
      dup2 t oldfd newfd = update t newfd (some { e with cloexec := false }) := by
  unfold dup2
  cases he : t oldfd with
  | none => exact Or.inl rfl
  | some e =>
    by_cases hne : oldfd = newfd
    · exact Or.inl (if_pos hne)
    · exact Or.inr ⟨hne, e, rfl, if_neg hne⟩

theorem dup2_of_ne (h : fd ≠ newfd) : dup2 t oldfd newfd fd = t fd := by
  rcases dup2_cases t oldfd newfd with heq | ⟨_, e, _, heq⟩
  · rw [heq]
  · rw [heq, update_of_ne h]

/-- What is open stays open, if with another file. -/
theorem dup2_isSome (h : (t fd).isSome) : (dup2 t oldfd newfd fd).isSome := by
  by_cases hfd : fd = newfd
  · subst hfd
    rcases dup2_cases t oldfd fd with heq | ⟨_, e, _, heq⟩
    · rw [heq]
      exact h
    · rw [heq, update_self]
      rfl
  · rw [dup2_of_ne hfd]
    exact h

theorem exec_eq_some_iff : exec t fd = some d ↔ t fd = some d ∧ d.cloexec = false := by
  unfold exec
  rw [Option.filter_eq_some_iff]
  simp

end Presence

section Absence

theorem close_eq_some (h : close t fd' fd = some d) : t fd = some d := by
  by_cases hfd : fd = fd'
  · subst hfd
    simp [close] at h
  · rwa [close_of_ne hfd] at h

/-- Every open descriptor of the new table is an old one or a copy. -/
theorem dup2_eq_some (h : dup2 t oldfd newfd fd = some d) :
    t fd = some d ∨ fd = newfd ∧ oldfd ≠ newfd ∧ ∃ e, t oldfd = some e ∧ d.file = e.file := by
  rcases dup2_cases t oldfd newfd with heq | ⟨hne, e, he, heq⟩
  · exact Or.inl (heq ▸ h)
  · by_cases hfd : fd = newfd
    · subst hfd
      rw [heq, update_self] at h
      cases h
      exact Or.inr ⟨rfl, hne, e, he, rfl⟩
    · rw [dup2_of_ne hfd] at h
      exact Or.inl h

theorem Absent.close (h : Absent t file) (fd : ℕ) : Absent (close t fd) file :=
  fun fd' d hd => h fd' d (close_eq_some hd)

theorem Absent.dup2 (h : Absent t file) (oldfd newfd : ℕ) :
    Absent (dup2 t oldfd newfd) file := by
  intro fd d hd
  rcases dup2_eq_some hd with hd | ⟨_, _, e, he, hfile⟩
  · exact h fd d hd
  · rw [hfile]
    exact h oldfd e he

theorem Absent.exec (h : Absent t file) : Absent (exec t) file :=
  fun fd d hd => h fd d (exec_eq_some_iff.mp hd).1

theorem Only.close (h : Only t file fd) (fd' : ℕ) : Only (close t fd') file fd :=
  fun fd'' d hd => h fd'' d (close_eq_some hd)

theorem Only.dup2 (h : Only t file fd) (hne : oldfd ≠ fd) (newfd : ℕ) :
    Only (dup2 t oldfd newfd) file fd := by
  intro fd' d hd hfile
  rcases dup2_eq_some hd with hd | ⟨_, _, e, he, hcopy⟩
  · exact h fd' d hd hfile
  · exact absurd (h oldfd e he (hcopy.symm.trans hfile)) hne

/-- Closing its only descriptor closes the file. -/
theorem Only.absent_close (h : Only t file fd) : Absent (Descriptors.close t fd) file := by
  intro fd' d hd hfile
  obtain rfl : fd' = fd := h fd' d (close_eq_some hd) hfile
  simp [Descriptors.close] at hd

/-- So does putting another file in its place. -/
theorem Only.absent_dup2 (h : Only t file newfd) (hopen : (t oldfd).isSome)
    (hne : oldfd ≠ newfd) : Absent (Descriptors.dup2 t oldfd newfd) file := by
  obtain ⟨e, he⟩ := Option.isSome_iff_exists.mp hopen
  intro fd d hd hfile
  by_cases hfd : fd = newfd
  · subst hfd
    simp only [Descriptors.dup2, he, if_neg hne, update_self, Option.some.injEq] at hd
    subst hd
    exact hne (h oldfd e he hfile)
  · rw [dup2_of_ne hfd] at hd
    exact hfd (h fd d hd hfile)

end Absence

section Ends

theorem HasEnd.ne (h : HasEnd t fd d) (h' : HasEnd t fd' d') (hd : d ≠ d') : fd ≠ fd' := by
  intro heq
  subst heq
  exact hd (Option.some.inj (h.here.symm.trans h'.here))

theorem HasEnd.close (h : HasEnd t fd d) (hne : fd ≠ fd') : HasEnd (close t fd') fd d :=
  ⟨(close_of_ne hne).trans h.here, h.only.close fd'⟩

theorem Below.close {number : ℕ} (h : Below number t) (fd : ℕ) : Below number (close t fd) :=
  fun fd' d pipe write hd => h fd' d pipe write (close_eq_some hd)

theorem Below.dup2 {number : ℕ} (h : Below number t) (oldfd newfd : ℕ) :
    Below number (dup2 t oldfd newfd) := by
  intro fd d pipe write hd hfile
  rcases dup2_eq_some hd with hd | ⟨_, _, e, he, hcopy⟩
  · exact h fd d pipe write hd hfile
  · exact h oldfd e pipe write he (hcopy.symm.trans hfile)

theorem Below.exec {number : ℕ} (h : Below number t) : Below number (exec t) :=
  fun fd d pipe write hd => h fd d pipe write (exec_eq_some_iff.mp hd).1

theorem Below.mono {number number' : ℕ} (h : Below number t) (hle : number ≤ number') :
    Below number' t :=
  fun fd d pipe write hd hfile => Nat.lt_of_lt_of_le (h fd d pipe write hd hfile) hle

theorem Below.absent {number : ℕ} (h : Below number t) {pipe : ℕ} (hpipe : number ≤ pipe)
    (write : Bool) : Absent t (.pipeEnd pipe write) :=
  fun fd d hd hfile => absurd (h fd d pipe write hd hfile) (Nat.not_lt.mpr hpipe)

variable {fds : ℕ × ℕ} {number : ℕ} {cloexec : Bool}

/-- Where the ends of a new pipe are, and what else the table has. -/
theorem pipe_cases (h : pipe t fds number cloexec = some t') :
    fds.1 ≠ fds.2 ∧ t fds.1 = none ∧ t fds.2 = none ∧
      t' fds.1 = some ⟨.pipeEnd number false, cloexec⟩ ∧
      t' fds.2 = some ⟨.pipeEnd number true, cloexec⟩ ∧
      ∀ fd, fd ≠ fds.1 → fd ≠ fds.2 → t' fd = t fd := by
  unfold pipe at h
  split at h
  · rename_i hfree
    obtain ⟨hne, hfst, hsnd⟩ := hfree
    cases h
    refine ⟨hne, hfst, hsnd, ?_, update_self _ _ _, fun fd hfd hfd' => ?_⟩
    · rw [update_of_ne hne, update_self]
    · rw [update_of_ne hfd', update_of_ne hfd]
  · cases h

/-- An open descriptor of the new table is one of the two ends or an old one. -/
theorem pipe_eq_some (h : pipe t fds number cloexec = some t') (hd : t' fd = some d) :
    fd = fds.1 ∧ d = ⟨.pipeEnd number false, cloexec⟩ ∨
      fd = fds.2 ∧ d = ⟨.pipeEnd number true, cloexec⟩ ∨ t fd = some d := by
  obtain ⟨-, -, -, hread, hwrite, hrest⟩ := pipe_cases h
  by_cases hfst : fd = fds.1
  · subst hfst
    exact Or.inl ⟨rfl, Option.some.inj (hd.symm.trans hread)⟩
  · by_cases hsnd : fd = fds.2
    · subst hsnd
      exact Or.inr (Or.inl ⟨rfl, Option.some.inj (hd.symm.trans hwrite)⟩)
    · exact Or.inr (Or.inr ((hrest fd hfst hsnd).symm.trans hd))

theorem Below.pipe (hbelow : Below number t) (h : pipe t fds number cloexec = some t') :
    Below (number + 1) t' := by
  intro fd d p write hd hfile
  rcases pipe_eq_some h hd with ⟨_, rfl⟩ | ⟨_, rfl⟩ | hold
  · cases hfile
    exact Nat.lt_succ_self _
  · cases hfile
    exact Nat.lt_succ_self _
  · exact Nat.lt_succ_of_lt (hbelow fd d p write hold hfile)

/-- A new pipe changes no end that was there before. -/
theorem HasEnd.pipe (hend : HasEnd t fd d) (hbelow : Below number t)
    (h : pipe t fds number cloexec = some t') : HasEnd t' fd d := by
  obtain ⟨-, hfst, hsnd, -, -, hrest⟩ := pipe_cases h
  constructor
  · rw [hrest fd, hend.here]
    · intro heq
      simp [heq ▸ hend.here] at hfst
    · intro heq
      simp [heq ▸ hend.here] at hsnd
  · intro fd' d' hd' hfile
    have hold := hbelow fd d number
    rcases pipe_eq_some h hd' with ⟨_, rfl⟩ | ⟨_, rfl⟩ | hold'
    · exact absurd (hold false hend.here hfile.symm) (Nat.lt_irrefl _)
    · exact absurd (hold true hend.here hfile.symm) (Nat.lt_irrefl _)
    · exact hend.only fd' d' hold' hfile

/-- Each end of a new pipe is open at its descriptor only. -/
theorem hasEnd_pipe (hbelow : Below number t) (h : pipe t fds number cloexec = some t') :
    HasEnd t' fds.1 ⟨.pipeEnd number false, cloexec⟩ ∧
      HasEnd t' fds.2 ⟨.pipeEnd number true, cloexec⟩ := by
  obtain ⟨-, -, -, hread, hwrite, -⟩ := pipe_cases h
  have hnew := hbelow.absent (Nat.le_refl number)
  refine ⟨⟨hread, fun fd d hd hfile => ?_⟩, ⟨hwrite, fun fd d hd hfile => ?_⟩⟩
  · rcases pipe_eq_some h hd with ⟨rfl, _⟩ | ⟨_, rfl⟩ | hold
    · rfl
    · cases hfile
    · exact absurd hfile (hnew false fd d hold)
  · rcases pipe_eq_some h hd with ⟨_, rfl⟩ | ⟨rfl, _⟩ | hold
    · cases hfile
    · rfl
    · exact absurd hfile (hnew true fd d hold)

end Ends

section Lists

/-- A table that has these descriptors besides those of another one. -/
structure Opens (t t' : Table) (l : List ℕ) : Prop where
  nodup : l.Nodup
  free : ∀ fd ∈ l, t fd = none
  live : ∀ fd ∈ l, t' fd ≠ none
  rest : ∀ fd, fd ∉ l → t' fd = t fd

theorem Opens.refl (t : Table) : Opens t t [] := ⟨List.nodup_nil, nofun, nofun, fun _ _ => rfl⟩

theorem Opens.append {t'' : Table} {l l' : List ℕ} (h : Opens t t' l) (h' : Opens t' t'' l') :
    Opens t t'' (l ++ l') where
  nodup := List.nodup_append.mpr ⟨h.nodup, h'.nodup, fun fd hfd fd' hfd' heq =>
    h.live fd hfd (h'.free fd (heq ▸ hfd'))⟩
  free fd hfd := by
    by_cases hmem : fd ∈ l
    · exact h.free fd hmem
    · rw [← h.rest fd hmem]
      exact h'.free fd ((List.mem_append.mp hfd).resolve_left hmem)
  live fd hfd := by
    by_cases hmem : fd ∈ l'
    · exact h'.live fd hmem
    · rw [h'.rest fd hmem]
      exact h.live fd ((List.mem_append.mp hfd).resolve_right hmem)
  rest fd hfd := by
    rw [List.mem_append, not_or] at hfd
    rw [h'.rest fd hfd.2, h.rest fd hfd.1]

theorem opens_pipe {fds : ℕ × ℕ} {number : ℕ} {cloexec : Bool}
    (h : pipe t fds number cloexec = some t') : Opens t t' [fds.1, fds.2] := by
  obtain ⟨hne, hfst, hsnd, hread, hwrite, hrest⟩ := pipe_cases h
  constructor
  · simpa using hne
  · simp [hfst, hsnd]
  · simp [hread, hwrite]
  · intro fd hfd
    rw [List.mem_cons, List.mem_singleton, not_or] at hfd
    exact hrest fd hfd.1 hfd.2

theorem Opens.perm {l l' : List ℕ} (h : Opens t t' l) (hperm : l.Perm l') : Opens t t' l' where
  nodup := hperm.nodup h.nodup
  free fd hfd := h.free fd (hperm.mem_iff.mpr hfd)
  live fd hfd := h.live fd (hperm.mem_iff.mpr hfd)
  rest fd hfd := h.rest fd fun hmem => hfd (hperm.mem_iff.mp hmem)

end Lists

section Sets

variable {t'' : Table} {s s' : Set ℕ}

/-- A table that lacks these descriptors of another one. -/
structure Clears (t t' : Table) (s : Set ℕ) : Prop where
  gone : ∀ fd ∈ s, t' fd = none
  rest : ∀ fd, fd ∉ s → t' fd = t fd

theorem clears_close (t : Table) (fd : ℕ) : Clears t (close t fd) {fd} where
  gone fd' hfd := by
    obtain rfl := Set.mem_singleton_iff.mp hfd
    exact update_self _ _ _
  rest fd' hfd := close_of_ne hfd

theorem Clears.trans (h : Clears t t' s) (h' : Clears t' t'' s') : Clears t t'' (s ∪ s') where
  gone fd hfd := by
    by_cases hmem : fd ∈ s'
    · exact h'.gone fd hmem
    · rw [h'.rest fd hmem]
      exact h.gone fd (hfd.resolve_right hmem)
  rest fd hfd := by
    rw [Set.mem_union, not_or] at hfd
    rw [h'.rest fd hfd.2, h.rest fd hfd.1]

theorem Clears.of_iff (h : Clears t t' s) (hs : ∀ fd, fd ∈ s ↔ fd ∈ s') : Clears t t' s' where
  gone fd hfd := h.gone fd ((hs fd).mpr hfd)
  rest fd hfd := h.rest fd fun hmem => hfd ((hs fd).mp hmem)

/-- Closing the new descriptors and others restores a table if and only if none of the
others is open in it. -/
theorem Opens.eq_iff {l : List ℕ} (h : Opens t t' l) (hclears : Clears t' t'' s)
    (hsub : ∀ fd ∈ l, fd ∈ s) : t'' = t ↔ ∀ fd ∈ s, t fd = none := by
  constructor
  · intro heq fd hfd
    rw [← heq]
    exact hclears.gone fd hfd
  · intro hnone
    funext fd
    by_cases hfd : fd ∈ s
    · rw [hclears.gone fd hfd, hnone fd hfd]
    · rw [hclears.rest fd hfd, h.rest fd fun hmem => hfd (hsub fd hmem)]

end Sets

end BoxUtils.Descriptors
