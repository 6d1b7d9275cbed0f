import BoxUtils.CJson
import BoxUtils.Runs
import Mathlib.Data.Finset.Erase
import Mathlib.Data.Finset.Insert

/-!
The packages of net/factory.cpp. A package owns a curl handle, which is told where the
package keeps its response headers and its list of request headers. The constructor and
the copy set both; the move takes the handle and the list along and leaves the handle with
the response headers of the package it came from.
-/
namespace BoxUtils.Factory

open Runs Function CJson

inductive HeaderFunction where
  | writeToHeaders
  | callback (cb : ℕ)
  deriving DecidableEq

/-- The options of a curl handle that are read or set here. Response headers are known by
the package that has them. -/
structure Easy where
  url : Option Text := none
  headerfunction : Option HeaderFunction := none
  headerdata : Option ℕ := none
  httpheader : Option ℕ := none
  deriving DecidableEq

/-- A `Headers`: the address of its `curl_slist`, and the lines in it. -/
structure Headers where
  slist : Option ℕ := none
  lines : List Text := []
  deriving DecidableEq

structure EasyPackage where
  headers : Headers
  easyHandle : Option ℕ
  deriving DecidableEq

/-- The template of a factory. -/
structure EasyFactory where
  headers : Headers
  easy : Easy

structure State where
  easies : Heap Easy
  /-- The next address of a `curl_slist`. -/
  slists : ℕ
  live : Finset ℕ
  package : ℕ → EasyPackage

inductive Action where
  /-- An `Easy` is made and set up by the user. -/
  | easy (e : Easy)
  | construct (o h : ℕ) (headers : Headers)
  /-- `create` and `allocate`. -/
  | create (o : ℕ) (factory : EasyFactory) (url : Text)
  | copy (o src : ℕ)
  | move (o src : ℕ)
  | destroy (o : ℕ)

section Source

def Easy.setUrl (e : Easy) (url : Text) : Easy := { e with url := some url }

def Easy.setOheaders (e : Easy) (respHeaders : ℕ) : Easy :=
  { e with headerfunction := some .writeToHeaders, headerdata := some respHeaders }

def Easy.setHeaders (e : Easy) (headers : Headers) : Easy := { e with httpheader := headers.slist }

-- appends a line; the number is the address for a new list
variable (curlSlistAppend : Headers → ℕ → Text → Headers × ℕ)

def update (headers : Headers) (slists : ℕ) (h : Headers) : Headers × ℕ :=
  h.lines.foldl (fun (headers, slists) str => curlSlistAppend headers slists str)
    (headers, slists)

/-- What the constructor and the copy constructor do once they have a handle. -/
def produce (s : State) (o h : ℕ) (headers : Headers) : Option State := do
  let (own, slists) := update curlSlistAppend {} s.slists headers
  let easies ← s.easies.modify h fun e => (e.setOheaders o).setHeaders own
  some ⟨easies, slists, insert o s.live, Function.update s.package o ⟨own, some h⟩⟩

/-- `Easy::clone`: the options are copied to a new handle. -/
def clone (s : State) (e : Easy) : State × ℕ :=
  ({ s with easies := s.easies.alloc e }, s.easies.fresh)

/-- The handle is in no package. -/
def Unowned (s : State) (h : ℕ) : Prop := ∀ o ∈ s.live, (s.package o).easyHandle ≠ some h

instance (s : State) (h : ℕ) : Decidable (Unowned s h) :=
  inferInstanceAs (Decidable (∀ o ∈ s.live, _))

def next (s : State) : Action → Option State
  | .easy e => some (clone s e).1
  | .construct o h headers =>
    if o ∉ s.live ∧ Unowned s h then produce curlSlistAppend s o h headers else none
  | .create o factory url =>
    if o ∉ s.live then
      let (s, e) := clone s factory.easy
      (s.easies.modify e fun easy => easy.setUrl url).bind fun easies =>
        produce curlSlistAppend { s with easies := easies } o e factory.headers
    else none
  | .copy o src =>
    if o ∉ s.live ∧ src ∈ s.live then do
      let h ← (s.package src).easyHandle
      let easy ← s.easies.cell h
      let (s, e) := clone s easy
      produce curlSlistAppend s o e (s.package src).headers
    else none
  | .move o src =>
    if o ∉ s.live ∧ src ∈ s.live then
      some { s with
        live := insert o s.live
        package := Function.update (Function.update s.package src ⟨{}, none⟩) o (s.package src) }
    else none
  | .destroy o =>
    if o ∈ s.live then
      match (s.package o).easyHandle with
      | none => some { s with live := s.live.erase o }
      | some h => (s.easies.free h).map fun easies =>
        { s with easies := easies, live := s.live.erase o }
    else none

def init : State := ⟨Heap.empty, 0, ∅, fun _ => ⟨{}, none⟩⟩

end Source

/-- Every handle in a package writes to the response headers of this package and has its
list of request headers. -/
def WritesIntoOwn (s : State) : Prop :=
  ∀ o ∈ s.live, ∀ h, (s.package o).easyHandle = some h → ∃ e, s.easies.cell h = some e ∧
    e.headerdata = some o ∧ e.httpheader = (s.package o).headers.slist

/-- No handle is in two packages. -/
def Apart (s : State) : Prop :=
  ∀ o ∈ s.live, ∀ p ∈ s.live, ∀ h, (s.package o).easyHandle = some h →
    (s.package p).easyHandle = some h → o = p

/-- A package that is moved owns no handle. -/
def MovesEmpty (s : State) : Action → Prop
  | .move _ src => (s.package src).easyHandle = none
  | _ => True

section Steps

variable {curlSlistAppend : Headers → ℕ → Text → Headers × ℕ}
variable {s t : State} {a : Action} {o src h : ℕ} {headers : Headers}

/-- A handle outside the packages changes, or is new. -/
theorem WritesIntoOwn.frame {E : Heap Easy} (hs : WritesIntoOwn s)
    (hsame : ∀ p ∈ s.live, ∀ h, (s.package p).easyHandle = some h →
      E.cell h = s.easies.cell h) : WritesIntoOwn { s with easies := E } := by
  intro p hp h hown
  obtain ⟨e, he, hset⟩ := hs p hp h hown
  exact ⟨e, (hsame p hp h hown).trans he, hset⟩

theorem WritesIntoOwn.ne_fresh (hs : WritesIntoOwn s) {p : ℕ} (hp : p ∈ s.live)
    (hown : (s.package p).easyHandle = some h) : h ≠ s.easies.fresh := by
  obtain ⟨e, he, -⟩ := hs p hp h hown
  exact (Heap.lt_fresh he).ne

theorem unowned_fresh (hs : WritesIntoOwn s) : Unowned s s.easies.fresh :=
  fun _ hp hown => hs.ne_fresh hp hown rfl

theorem WritesIntoOwn.clone (hs : WritesIntoOwn s) (e : Easy) : WritesIntoOwn (clone s e).1 :=
  hs.frame fun _ hp _ hown => Heap.cell_alloc_of_ne _ _ (hs.ne_fresh hp hown)

/-- A package that is produced joins the others, with the handle set up for it. -/
theorem produce_good (hs : WritesIntoOwn s) (hd : Apart s) (ho : o ∉ s.live)
    (hfree : Unowned s h) (hstep : produce curlSlistAppend s o h headers = some t) :
    WritesIntoOwn t ∧ Apart t := by
  obtain ⟨easies, hmod, ht⟩ := Option.bind_eq_some_iff.mp hstep
  obtain ⟨e, he, rfl⟩ := Option.map_eq_some_iff.mp hmod
  obtain rfl := (Option.some.inj ht).symm
  have hother : ∀ p ∈ s.live, p ≠ o := fun p hp hpo => ho (hpo ▸ hp)
  constructor
  · intro p hp h' hown
    rcases Finset.mem_insert.mp hp with rfl | hold
    · simp only [update_self, Option.some.injEq] at hown ⊢
      subst h'
      exact ⟨_, Heap.cell_put_self he _, rfl, rfl⟩
    · simp only [update_of_ne (hother p hold)] at hown ⊢
      obtain ⟨e', he', hset⟩ := hs p hold h' hown
      have hne : h' ≠ h := fun heq => hfree p hold (heq ▸ hown)
      exact ⟨e', (Heap.cell_put_of_ne _ _ hne).trans he', hset⟩
  · have hnew : ∀ p ∈ s.live, ∀ h', (s.package p).easyHandle = some h' → h' ≠ h :=
      fun p hp h' hown heq => hfree p hp (heq ▸ hown)
    intro p hp q hq h' hown hown'
    rcases Finset.mem_insert.mp hp with hpo | hp
    · rcases Finset.mem_insert.mp hq with hqo | hq
      · exact hpo.trans hqo.symm
      · simp only [hpo, update_self, Option.some.injEq] at hown
        simp only [update_of_ne (hother q hq)] at hown'
        exact absurd hown.symm (hnew q hq h' hown')
    · simp only [update_of_ne (hother p hp)] at hown
      rcases Finset.mem_insert.mp hq with hqo | hq
      · simp only [hqo, update_self, Option.some.injEq] at hown'
        exact absurd hown'.symm (hnew p hp h' hown)
      · simp only [update_of_ne (hother q hq)] at hown'
        exact hd p hp q hq h' hown hown'

theorem destroy_good (hs : WritesIntoOwn s) (hd : Apart s)
    (hstep : next curlSlistAppend s (.destroy o) = some t) : WritesIntoOwn t ∧ Apart t := by
  obtain ⟨ho, hstep⟩ := Option.ite_none_right_eq_some.mp hstep
  have hleft : Apart { s with live := s.live.erase o } := fun p hp q hq =>
    hd p (Finset.mem_of_mem_erase hp) q (Finset.mem_of_mem_erase hq)
  have hkept : WritesIntoOwn { s with live := s.live.erase o } := fun p hp =>
    hs p (Finset.mem_of_mem_erase hp)
  cases hhandle : (s.package o).easyHandle with
  | none =>
    simp only [hhandle] at hstep
    obtain rfl := Option.some.inj hstep
    exact ⟨hkept, hleft⟩
  | some h =>
    simp only [hhandle] at hstep
    obtain ⟨e, he, -⟩ := hs o ho h hhandle
    rw [Heap.free_eq he] at hstep
    obtain rfl := Option.some.inj hstep
    refine ⟨hkept.frame fun p hp h' hown => Heap.cell_erase_of_ne _ fun heq => ?_, hleft⟩
    -- the handle that goes is in no other package
    subst h'
    have hpo := hd p (Finset.mem_of_mem_erase hp) o ho h hown hhandle
    exact Finset.ne_of_mem_erase hp hpo

theorem move_cases (hstep : next curlSlistAppend s (.move o src) = some t) :
    o ∉ s.live ∧ src ∈ s.live ∧ t.easies = s.easies ∧ t.live = insert o s.live ∧
    t.package = Function.update (Function.update s.package src ⟨{}, none⟩) o (s.package src) := by
  obtain ⟨hlive, hstep⟩ := Option.ite_none_right_eq_some.mp hstep
  obtain rfl := Option.some.inj hstep
  exact ⟨hlive.1, hlive.2, rfl, rfl, rfl⟩

/-- What a package has after a move: the new one is as the source was. -/
theorem move_handle (hstep : next curlSlistAppend s (.move o src) = some t) {p : ℕ}
    (hp : p ∈ t.live) (hown : (t.package p).easyHandle = some h) :
    (p = o ∧ t.package p = s.package src) ∨
      (p ∈ s.live ∧ p ≠ src ∧ t.package p = s.package p) := by
  obtain ⟨ho, hsrc, -, hlive, hpackage⟩ := move_cases hstep
  rw [hlive] at hp
  rw [hpackage] at hown ⊢
  rcases Finset.mem_insert.mp hp with hpo | hp
  · exact .inl ⟨hpo, by rw [hpo, update_self]⟩
  · have hpo : p ≠ o := fun heq => ho (heq ▸ hp)
    rw [update_of_ne hpo] at hown ⊢
    by_cases hps : p = src
    · subst p
      rw [update_self] at hown
      cases hown
    · exact .inr ⟨hp, hps, by rw [update_of_ne hps]⟩

theorem move_apart (hd : Apart s) (hstep : next curlSlistAppend s (.move o src) = some t) :
    Apart t := by
  obtain ⟨-, hsrc, -⟩ := move_cases hstep
  intro p hp q hq h hown hown'
  rcases move_handle hstep hp hown with ⟨hpo, hpt⟩ | ⟨hp, hps, hpt⟩ <;>
    rcases move_handle hstep hq hown' with ⟨hqo, hqt⟩ | ⟨hq, hqs, hqt⟩ <;>
    rw [hpt] at hown <;> rw [hqt] at hown'
  · exact hpo.trans hqo.symm
  · exact absurd (hd q hq src hsrc h hown' hown) hqs
  · exact absurd (hd p hp src hsrc h hown hown') hps
  · exact hd p hp q hq h hown hown'

/-- A move keeps the property exactly when there is no handle to move: the handle goes on
writing to the package it came from. -/
theorem move_writesIntoOwn_iff (hs : WritesIntoOwn s)
    (hstep : next curlSlistAppend s (.move o src) = some t) :
    WritesIntoOwn t ↔ (s.package src).easyHandle = none := by
  obtain ⟨ho, hsrc, heasies, hlive, hpackage⟩ := move_cases hstep
  constructor
  · intro ht
    by_contra hsome
    obtain ⟨h, hown⟩ := Option.ne_none_iff_exists'.mp hsome
    obtain ⟨e, he, hdata, -⟩ := hs src hsrc h hown
    obtain ⟨e', he', hdata', -⟩ := ht o (by rw [hlive]; exact Finset.mem_insert_self _ _) h
      (by rw [hpackage, update_self]; exact hown)
    rw [heasies, he] at he'
    obtain rfl := Option.some.inj he'
    obtain rfl : src = o := Option.some.inj (hdata.symm.trans hdata')
    exact ho hsrc
  · intro hnone p hp h hown
    rcases move_handle hstep hp hown with ⟨-, hpt⟩ | ⟨hold, -, hpt⟩
    · rw [hpt, hnone] at hown
      cases hown
    · rw [hpt] at hown ⊢
      rw [heasies]
      exact hs p hold h hown

/-- The other actions set up each handle that they give to a package. -/
theorem next_good (hs : WritesIntoOwn s) (hd : Apart s) (hmove : ∀ o src, a ≠ .move o src)
    (hstep : next curlSlistAppend s a = some t) : WritesIntoOwn t ∧ Apart t := by
  have hnew : Unowned s s.easies.fresh := unowned_fresh hs
  cases a with
  | easy e =>
    obtain rfl := Option.some.inj hstep
    exact ⟨hs.clone e, hd⟩
  | construct o h headers =>
    obtain ⟨hok, hstep⟩ := Option.ite_none_right_eq_some.mp hstep
    exact produce_good hs hd hok.1 hok.2 hstep
  | create o factory url =>
    obtain ⟨ho, hstep⟩ := Option.ite_none_right_eq_some.mp hstep
    obtain ⟨easies, hmod, hstep⟩ := Option.bind_eq_some_iff.mp hstep
    obtain ⟨e, -, rfl⟩ := Option.map_eq_some_iff.mp hmod
    have hcloned := (hs.clone factory.easy).frame (E := (s.easies.alloc factory.easy).put
      s.easies.fresh (e.setUrl url)) fun p hp h hown =>
        Heap.cell_put_of_ne _ _ (hs.ne_fresh hp hown)
    exact produce_good hcloned hd ho hnew hstep
  | copy o src =>
    obtain ⟨hok, hstep⟩ := Option.ite_none_right_eq_some.mp hstep
    obtain ⟨h, -, hstep⟩ := Option.bind_eq_some_iff.mp hstep
    obtain ⟨easy, -, hstep⟩ := Option.bind_eq_some_iff.mp hstep
    exact produce_good (hs.clone easy) hd hok.1 hnew hstep
  | move o src => exact absurd rfl (hmove o src)
  | destroy o => exact destroy_good hs hd hstep

theorem next_iff (hs : WritesIntoOwn s) (hd : Apart s) (hstep : next curlSlistAppend s a = some t) :
    Apart t ∧ (WritesIntoOwn t ↔ MovesEmpty s a) := by
  cases a with
  | move o src => exact ⟨move_apart hd hstep, move_writesIntoOwn_iff hs hstep⟩
  | _ =>
    obtain ⟨hgood, hapart⟩ := next_good hs hd (by simp) hstep
    exact ⟨hapart, iff_of_true hgood trivial⟩

end Steps

/-- Over any sequence of operations the handles write into the headers of their own
packages if and only if only packages without a handle are moved. -/
theorem writesIntoOwn_iff (curlSlistAppend : Headers → ℕ → Text → Headers × ℕ)
    (as : List Action) : Throughout (next curlSlistAppend) WritesIntoOwn init as ↔
      StepsMeet (next curlSlistAppend) MovesEmpty init as := by
  have hinit : WritesIntoOwn init ∧ Apart init :=
    ⟨fun o ho => absurd ho (Finset.notMem_empty o), fun o ho => absurd ho (Finset.notMem_empty o)⟩
  apply throughout_iff_stepsMeet (I := fun s => WritesIntoOwn s ∧ Apart s) _ _ _ hinit
  · intro s a t hs hmeets hstep
    obtain ⟨hapart, hiff⟩ := next_iff hs.1 hs.2 hstep
    exact ⟨hiff.mpr hmeets, hapart⟩
  · exact fun s hs => hs.1
  · intro s a t hs hstep hnot ht
    exact hnot ((next_iff hs.1 hs.2 hstep).2.mp ht)

/-- A package that is moved leaves its handle writing to the package it came from. -/
theorem moved_handle : ¬ ∀ (curlSlistAppend : Headers → ℕ → Text → Headers × ℕ) (as : List Action),
    Throughout (next curlSlistAppend) WritesIntoOwn init as := by
  intro h
  let append : Headers → ℕ → Text → Headers × ℕ := fun headers slists str =>
    match headers.slist with
    | none => (⟨some slists, [str]⟩, slists + 1)
    | some a => (⟨some a, headers.lines ++ [str]⟩, slists)
  let line : Text := ⟨[65, 58, 66], by decide⟩
  let as : List Action := [.easy {}, .construct 0 0 ⟨some 9, [line]⟩, .move 1 0]
  have hrun : (run (next append) init as).map (fun s => (s.live, (s.package 1).easyHandle,
      (s.easies.cell 0).map Easy.headerdata)) = some ({0, 1}, some 0, some (some 0)) := by
    decide
  obtain ⟨s, hs, hlast⟩ := Option.map_eq_some_iff.mp hrun
  simp only [Prod.mk.injEq] at hlast
  obtain ⟨hlive, hown, hdata⟩ := hlast
  obtain ⟨e, he, hset, -⟩ := ((h append as).final hs) 1 (by rw [hlive]; decide) 0 hown
  rw [he, Option.map_some, hset] at hdata
  cases hdata

end BoxUtils.Factory
