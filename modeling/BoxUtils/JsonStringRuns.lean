import BoxUtils.JsonStrings

/-!
Runs in which strings are assigned. Every step keeps what cJSON knows of its own blocks;
a step keeps the run exact just when it assigns no string to a reference and none from
within the string that is replaced. Such an assignment is, on nodes whose strings are
values, the one that writes the value.
-/
namespace BoxUtils.JsonStrings

open CJson CMemory Runs Function

section Steps

variable {s t : State} {M M' M₁ : Memory} {item : Item} {a b : ℕ} {str : Pointer}

theorem claim_of_lt (h : b < s.memory.fresh) (M : Memory) (a : ℕ) :
    s.claim M a b = s.owner b :=
  if_neg fun hnew => Nat.not_le_of_lt h hnew.1

theorem claim_cases {a' : ℕ} (h : s.claim M a b = some a') :
    (s.memory.fresh ≤ b ∧ b < M.fresh) ∧ a' = a ∨ s.owner b = some a' := by
  unfold State.claim at h
  split at h
  · rename_i hnew
    exact Or.inl ⟨hnew, (Option.some.inj h).symm⟩
  · exact Or.inr h

theorem Own.mono (h : Own s a item) (howner : ∀ b, s.owner b = some a → t.owner b = some a) :
    Own t a item where
  kind := h.kind
  apart := h.apart
  own p hp := ⟨(h.own p hp).1, howner _ (h.own p hp).2⟩

theorem Own.owner (h : Own s a item) (hb : b ∈ item.blocks) : s.owner b = some a := by
  obtain ⟨p, hp, rfl⟩ := List.mem_map.mp hb
  exact (h.own p hp).2

theorem Kept.claimed (h : Kept s) {a' : ℕ} (hb : s.owner b = some a') (M : Memory) (a : ℕ) :
    s.claim M a b = some a' :=
  (claim_of_lt (h.owner b a' hb).1 M a).trans hb

theorem kept_undefined (h : Kept s) : Kept { s with undefined := true } where
  item a item hitem := (h.item a item hitem).mono fun _ hb => hb
  heap := h.heap
  owner := h.owner
  held := h.held

/-- The program gets, fills or frees a block of its own. -/
theorem Kept.program (h : Kept s) {K : Finset ℕ} (hfresh : s.memory.fresh ≤ M'.fresh)
    (hsame : ∀ b, s.owner b ≠ none → M'.cell b = s.memory.cell b)
    (hheld : ∀ b ∈ K, b < M'.fresh ∧ s.owner b = none) :
    Kept { s with memory := M', held := K } where
  item a item hitem := (h.item a item hitem).mono fun _ hb => hb
  heap b blk hblk hb := h.heap b blk ((hsame b hb).symm.trans hblk) hb
  owner b a hb := ⟨Nat.lt_of_lt_of_le (h.owner b a hb).1 hfresh, (h.owner b a hb).2⟩
  held := hheld

theorem Exact.program (h : Exact s) (hs : Kept s) {K : Finset ℕ}
    (hsame : ∀ b, s.owner b ≠ none → M'.cell b = s.memory.cell b)
    (hlive : ∀ b ∈ K, M'.cell b ≠ none) : Exact { s with memory := M', held := K } where
  defined := h.defined
  holds a item hitem u hu := by
    obtain ⟨p, hp, hvalue, htext⟩ := h.holds a item hitem u hu
    refine ⟨p, hp, hvalue, ?_⟩
    rw [← htext]
    apply text_congr
    apply hsame
    rw [((hs.item a item hitem).own p hp).2]
    exact Option.some_ne_none a
  spared := hlive
  strings b a hb := by
    rw [hsame b (by rw [hb]; exact Option.some_ne_none a)]
    exact h.strings b a hb

theorem Kept.join (h : Kept s) {u : Option (List UInt8)} (hm : Makes s.memory M item u) :
    Kept (s.join u (M, item)) where
  item a' item' hitem' := by
    by_cases hnew : a' = s.items.fresh
    · subst a'
      obtain rfl : item = item' :=
        Option.some.inj ((Heap.cell_alloc_self s.items item).symm.trans hitem')
      refine ⟨hm.kind, hm.apart, fun p hp => ⟨hm.start p hp, ?_⟩⟩
      exact if_pos ((hm.new p.block).mp (List.mem_map_of_mem hp))
    · have hold : s.items.cell a' = some item' :=
        (Heap.cell_alloc_of_ne s.items item hnew).symm.trans hitem'
      exact (h.item a' item' hold).mono fun b hb => h.claimed hb M _
  heap b blk hblk hb := by
    by_cases hnew : b ∈ item.blocks
    · obtain ⟨blk', hblk', hheap⟩ := hm.heap b hnew
      obtain rfl : blk = blk' := Option.some.inj (hblk.symm.trans hblk')
      exact hheap
    · have howner : s.claim M s.items.fresh b = s.owner b :=
        if_neg fun hrange => hnew ((hm.new b).mpr hrange)
      obtain ⟨a', ha'⟩ := Option.ne_none_iff_exists'.mp fun hnone => hb (howner.trans hnone)
      have hold : M.cell b = s.memory.cell b := hm.old b (h.owner b a' ha').1
      exact h.heap b blk (hold.symm.trans hblk) (by rw [ha']; exact Option.some_ne_none a')
  owner b a' hb := by
    have hfresh := hm.fresh
    rcases claim_cases hb with ⟨hnew, rfl⟩ | hold
    · exact ⟨hnew.2, Nat.lt_succ_self _⟩
    · obtain ⟨hb, ha⟩ := h.owner b a' hold
      exact ⟨Nat.lt_of_lt_of_le hb hfresh, Nat.lt_succ_of_lt ha⟩
  held b hb := by
    obtain ⟨hlt, hnone⟩ := h.held b hb
    exact ⟨Nat.lt_of_lt_of_le hlt hm.fresh, (claim_of_lt hlt M _).trans hnone⟩

theorem Exact.join (h : Exact s) (hs : Kept s) {u : Option (List UInt8)}
    (hm : Makes s.memory M item u) : Exact (s.join u (M, item)) where
  defined := h.defined
  holds a' item' hitem' v hv := by
    by_cases hnew : a' = s.items.fresh
    · subst a'
      obtain rfl : item = item' :=
        Option.some.inj ((Heap.cell_alloc_self s.items item).symm.trans hitem')
      exact hm.holds v (by simpa [State.join] using hv)
    · have hold : s.items.cell a' = some item' :=
        (Heap.cell_alloc_of_ne s.items item hnew).symm.trans hitem'
      obtain ⟨p, hp, hvalue, htext⟩ :=
        h.holds a' item' hold v (by simpa [State.join, hnew] using hv)
      have hlt := (hs.owner _ _ ((hs.item a' item' hold).own p hp).2).1
      exact ⟨p, hp, hvalue, (text_congr (hm.old _ hlt)).trans htext⟩
  spared b hb := by
    have hold := hm.old b (hs.held b hb).1
    exact fun hnone => h.spared b hb (hold.symm.trans hnone)
  strings b a' hb := by
    rcases claim_cases hb with ⟨hnew, rfl⟩ | hold
    · have hmem := (hm.new b).mpr hnew
      obtain ⟨blk, hblk, -⟩ := hm.heap b hmem
      have hlive : M.cell b ≠ none := by
        rw [hblk]
        exact Option.some_ne_none blk
      exact iff_of_true hlive ⟨item, Heap.cell_alloc_self s.items item, hmem⟩
    · obtain ⟨hlt, ha⟩ := hs.owner b a' hold
      have hitems : (s.items.alloc item).cell a' = s.items.cell a' :=
        Heap.cell_alloc_of_ne s.items item (Nat.ne_of_lt ha)
      have hmemory : M.cell b = s.memory.cell b := hm.old b hlt
      simp only [State.join, hitems, hmemory]
      exact h.strings b a' hold

theorem Kept.destroy (h : Kept s) (hf : Frees s.memory M' item.blocks) (a : ℕ) :
    Kept { s with memory := M', items := s.items.erase a } where
  item a' item' hitem' :=
    (h.item a' item' (Heap.cell_of_erase hitem').2).mono fun _ hb => hb
  heap b blk hblk hb := by
    by_cases hmem : b ∈ item.blocks
    · cases (hf.gone b hmem).symm.trans hblk
    · exact h.heap b blk ((hf.others b hmem).symm.trans hblk) hb
  owner b a' hb := by
    obtain ⟨hlt, ha⟩ := h.owner b a' hb
    exact ⟨hf.fresh ▸ hlt, ha⟩
  held b hb := by
    obtain ⟨hlt, hnone⟩ := h.held b hb
    exact ⟨hf.fresh ▸ hlt, hnone⟩

theorem Exact.destroy (h : Exact s) (hs : Kept s) (hitem : s.items.cell a = some item)
    (hf : Frees s.memory M' item.blocks) :
    Exact { s with memory := M', items := s.items.erase a } where
  defined := h.defined
  holds a' item' hitem' u hu := by
    obtain ⟨hne, hold⟩ := Heap.cell_of_erase hitem'
    obtain ⟨p, hp, hvalue, htext⟩ := h.holds a' item' hold u hu
    have hother : p.block ∉ item.blocks := by
      intro hmem
      have howner := (hs.item a item hitem).owner hmem
      exact hne (Option.some.inj (((hs.item a' item' hold).own p hp).2.symm.trans howner))
    exact ⟨p, hp, hvalue, (text_congr (hf.others _ hother)).trans htext⟩
  spared b hb := by
    have hother : b ∉ item.blocks := by
      intro hmem
      cases (hs.held b hb).2.symm.trans ((hs.item a item hitem).owner hmem)
    exact fun hnone => h.spared b hb ((hf.others b hother).symm.trans hnone)
  strings b a' hb := by
    have hold := h.strings b a' hb
    by_cases hmem : b ∈ item.blocks
    · have howner := (hs.item a item hitem).owner hmem
      obtain rfl : a' = a := Option.some.inj (hb.symm.trans howner)
      simp [hf.gone b hmem]
    · have hsame : M'.cell b = s.memory.cell b := hf.others b hmem
      rw [hsame]
      by_cases ha : a' = a
      · subst a'
        rw [hold]
        simp [hitem, hmem]
      · simpa [Heap.cell_erase_of_ne s.items ha] using hold

/-- What is in memory is enough for `cJSON_Delete`. -/
theorem Exact.freeable (h : Exact s) (hs : Kept s) (hitem : s.items.cell a = some item) :
    ∀ q ∈ item.owned, Freeable s.memory q := by
  intro q hq
  obtain ⟨hoffset, howner⟩ := (hs.item a item hitem).own q hq
  have hlive := (h.strings _ a howner).mpr ⟨item, hitem, List.mem_map_of_mem hq⟩
  obtain ⟨blk, hblk⟩ := Option.ne_none_iff_exists'.mp hlive
  refine ⟨hoffset, blk, hblk, hs.heap _ blk hblk ?_⟩
  rw [howner]
  exact Option.some_ne_none a

section Assignment

variable {u : List UInt8}

/-- After an assignment the item has the new block, and its name. -/
theorem owned_assigned (item : Item) (p : Pointer) :
    ({ item with valuestring := some p } : Item).owned =
      freed item.isReference (some p) ++ freed item.stringIsConst item.string := rfl

/-- The state after an assignment that went through. -/
def State.assign (s : State) (a : ℕ) (M : Memory) (item : Item) (u : List UInt8) : State :=
  { s with
    memory := M
    items := s.items.put a item
    assigned := update s.assigned a (some u)
    owner := s.claim M a }

/-- The block of the string before is freed, and another one is allocated. -/
structure Replaces (s : State) (a : ℕ) (item : Item) (M M' : Memory) (u : List UInt8) : Prop where
  here : s.items.cell a = some item
  frees : Frees s.memory M (item.valuestring.toList.map Pointer.block)
  adds : Adds M M' u

def Item.renewed (item : Item) (M : Memory) : Item :=
  { item with valuestring := some ⟨M.fresh, 0⟩ }

variable (hr : Replaces s a item M M' u)

include hr

theorem Replaces.fresh : M'.fresh = s.memory.fresh + 1 := by
  rw [hr.adds.fresh, hr.frees.fresh]

theorem Replaces.claim (hb : b ≠ s.memory.fresh) : s.claim M' a b = s.owner b := by
  apply if_neg
  rw [hr.fresh]
  omega

theorem Replaces.claim_new : s.claim M' a s.memory.fresh = some a := by
  apply if_pos
  rw [hr.fresh]
  omega

/-- A block that is neither the old string nor the new one. -/
theorem Replaces.others (hb : b ∉ item.valuestring.toList.map Pointer.block)
    (hnew : b ≠ s.memory.fresh) : M'.cell b = s.memory.cell b := by
  rw [hr.adds.others b (by rwa [hr.frees.fresh]), hr.frees.others b hb]

/-- The item has its new string, and its name as before. -/
theorem Own.renewed (hown : Own s a item) (h : Kept s) :
    Own (s.assign a M' (item.renewed M) u) a (item.renewed M) := by
  have hname : ∀ p ∈ freed item.stringIsConst item.string, p ∈ item.owned :=
    fun p hp => List.mem_append_right _ hp
  constructor
  case kind => exact hown.kind
  case apart =>
    have hapart := hown.apart
    rw [Item.blocks, owned_eq, List.map_append, List.nodup_append] at hapart
    rw [Item.blocks, Item.renewed, owned_assigned, List.map_append, List.nodup_append]
    refine ⟨by cases item.isReference <;> simp [freed], hapart.2.1, ?_⟩
    rintro b hb c hc rfl
    obtain ⟨p, hp, hpb⟩ := List.mem_map.mp hc
    have hlt := (h.owner _ _ (hown.own p (hname p hp)).2).1
    have hfresh : b = M.fresh := by
      cases href : item.isReference <;> simp_all [freed]
    rw [hpb, hfresh, hr.frees.fresh] at hlt
    exact Nat.lt_irrefl _ hlt
  case own =>
    intro p hp
    rw [Item.renewed, owned_assigned] at hp
    rcases List.mem_append.mp hp with hp | hp
    · obtain rfl : p = ⟨M.fresh, 0⟩ := by
        cases href : item.isReference <;> simp_all [freed]
      refine ⟨rfl, ?_⟩
      show s.claim M' a M.fresh = some a
      rw [hr.frees.fresh]
      exact hr.claim_new
    · obtain ⟨hoffset, howner⟩ := hown.own p (hname p hp)
      exact ⟨hoffset, h.claimed howner M' a⟩

theorem Kept.assign (h : Kept s) : Kept (s.assign a M' (item.renewed M) u) where
  item a' item' hitem' := by
    by_cases haa : a' = a
    · subst a'
      obtain rfl : item.renewed M = item' :=
        Option.some.inj ((Heap.cell_put_self hr.here _).symm.trans hitem')
      exact (h.item a item hr.here).renewed hr h
    · have hold : s.items.cell a' = some item' :=
        (Heap.cell_put_of_ne s.items _ haa).symm.trans hitem'
      exact (h.item a' item' hold).mono fun b hb => h.claimed hb M' a
  heap b blk hblk hb := by
    by_cases hnew : b = s.memory.fresh
    · subst b
      obtain ⟨blk', hblk', hheap⟩ := hr.adds.block
      rw [hr.frees.fresh] at hblk'
      obtain rfl : blk = blk' := Option.some.inj (hblk.symm.trans hblk')
      exact hheap
    · have howner : s.owner b ≠ none := fun hnone => hb ((hr.claim hnew).trans hnone)
      by_cases hmem : b ∈ item.valuestring.toList.map Pointer.block
      · have hgone := hr.frees.gone b hmem
        rw [← hr.adds.others b (by rwa [hr.frees.fresh])] at hgone
        cases hgone.symm.trans hblk
      · exact h.heap b blk ((hr.others hmem hnew).symm.trans hblk) howner
  owner b a' hb := by
    have hfresh := hr.fresh
    rcases claim_cases hb with ⟨hnew, rfl⟩ | hold
    · have hlt := Heap.lt_fresh hr.here
      exact ⟨hnew.2, hlt⟩
    · obtain ⟨hlt, ha⟩ := h.owner b a' hold
      exact ⟨hfresh ▸ Nat.lt_succ_of_lt hlt, ha⟩
  held b hb := by
    obtain ⟨hlt, hnone⟩ := h.held b hb
    exact ⟨hr.fresh ▸ Nat.lt_succ_of_lt hlt, (claim_of_lt hlt M' a).trans hnone⟩

/-- Where the item is no reference, it has the new string and nothing of the old one. -/
theorem Replaces.mem_renewed (href : item.isReference = false) (h : Own s a item) :
    b ∈ (item.renewed M).blocks ↔ b = s.memory.fresh ∨
      b ∈ item.blocks ∧ b ∉ item.valuestring.toList.map Pointer.block := by
  have hfresh := hr.frees.fresh
  have hapart := h.apart
  rw [Item.blocks, owned_eq, List.map_append, List.nodup_append] at hapart
  have hvalue : freed item.isReference item.valuestring = item.valuestring.toList := by
    simp [freed, href]
  rw [hvalue] at hapart
  have hold : b ∈ item.blocks ↔ b ∈ item.valuestring.toList.map Pointer.block ∨
      b ∈ (freed item.stringIsConst item.string).map Pointer.block := by
    rw [Item.blocks, owned_eq, hvalue, List.map_append, List.mem_append]
  have hnew : b ∈ (item.renewed M).blocks ↔ b = s.memory.fresh ∨
      b ∈ (freed item.stringIsConst item.string).map Pointer.block := by
    rw [Item.blocks, Item.renewed, owned_assigned, List.map_append, List.mem_append]
    simp [freed, href, hfresh]
  rw [hnew, hold]
  constructor
  · rintro (hb | hb)
    · exact Or.inl hb
    · exact Or.inr ⟨Or.inr hb, fun hmem => hapart.2.2 b hmem b hb rfl⟩
  · rintro (hb | ⟨hb | hb, hnot⟩)
    · exact Or.inl hb
    · exact absurd hb hnot
    · exact Or.inr hb

/-- What the old string takes up belongs to the item. -/
theorem Replaces.mine (href : item.isReference = false) (hs : Kept s)
    (hb : b ∈ item.valuestring.toList.map Pointer.block) : s.owner b = some a := by
  apply (hs.item a item hr.here).owner
  rw [Item.blocks, owned_eq, List.map_append]
  exact List.mem_append_left _ (by simpa [freed, href] using hb)

/-- Blocks that are not of the item are as they were. -/
theorem Replaces.cell_of_owner_ne (href : item.isReference = false) (hs : Kept s)
    (hlt : b < s.memory.fresh) (hb : s.owner b ≠ some a) : M'.cell b = s.memory.cell b :=
  hr.others (fun hmem => hb (hr.mine href hs hmem)) (Nat.ne_of_lt hlt)

theorem Replaces.cell_new_ne_none : M'.cell s.memory.fresh ≠ none := by
  obtain ⟨blk, hblk, -⟩ := hr.adds.block
  rw [← hr.frees.fresh, hblk]
  exact Option.some_ne_none blk

/-- A block of the item is there afterwards just when it still belongs to the item. -/
theorem Exact.live_renewed (h : Exact s) (hs : Kept s) (href : item.isReference = false)
    (hb : s.owner b = some a) (hnew : b ≠ s.memory.fresh) :
    M'.cell b ≠ none ↔ b ∈ (item.renewed M).blocks := by
  have hbefore : s.memory.cell b ≠ none ↔ b ∈ item.blocks := by
    simpa [hr.here] using h.strings b a hb
  rw [hr.mem_renewed href (hs.item a item hr.here)]
  by_cases hmem : b ∈ item.valuestring.toList.map Pointer.block
  · have hgone : M'.cell b = none := by
      rw [hr.adds.others b (by rwa [hr.frees.fresh]), hr.frees.gone b hmem]
    simp [hgone, hmem, hnew]
  · rw [hr.others hmem hnew, hbefore]
    simp [hmem, hnew]

theorem Exact.assign (h : Exact s) (hs : Kept s) (href : item.isReference = false) :
    Exact (s.assign a M' (item.renewed M) u) := by
  have hown := hs.item a item hr.here
  constructor
  case defined => exact h.defined
  case holds =>
    intro a' item' hitem' v hv
    by_cases haa : a' = a
    · subst a'
      obtain rfl : item.renewed M = item' :=
        Option.some.inj ((Heap.cell_put_self hr.here _).symm.trans hitem')
      obtain rfl : u = v := by simpa [State.assign] using hv
      refine ⟨⟨M.fresh, 0⟩, ?_, rfl, hr.adds.text⟩
      rw [Item.renewed, owned_assigned]
      exact List.mem_append_left _ (by simp [freed, href])
    · have hold : s.items.cell a' = some item' :=
        (Heap.cell_put_of_ne s.items _ haa).symm.trans hitem'
      obtain ⟨p, hp, hvalue, htext⟩ :=
        h.holds a' item' hold v (by simpa [State.assign, haa] using hv)
      have howner := ((hs.item a' item' hold).own p hp).2
      have hsame : M'.cell p.block = s.memory.cell p.block := by
        apply hr.cell_of_owner_ne href hs (hs.owner _ _ howner).1
        exact fun hother => haa (Option.some.inj (howner.symm.trans hother))
      exact ⟨p, hp, hvalue, (text_congr hsame).trans htext⟩
  case spared =>
    intro b hb
    obtain ⟨hlt, hnone⟩ := hs.held b hb
    have hsame : M'.cell b = s.memory.cell b := by
      apply hr.cell_of_owner_ne href hs hlt
      rw [hnone]
      exact (Option.some_ne_none a).symm
    exact fun hgone => h.spared b hb (hsame.symm.trans hgone)
  case strings =>
    intro b a' hb
    by_cases hnew : b = s.memory.fresh
    · subst b
      obtain rfl : a' = a := Option.some.inj (hb.symm.trans hr.claim_new)
      refine iff_of_true hr.cell_new_ne_none ⟨_, Heap.cell_put_self hr.here _, ?_⟩
      exact (hr.mem_renewed href hown).mpr (Or.inl rfl)
    · have hold : s.owner b = some a' := (hr.claim hnew).symm.trans hb
      by_cases haa : a' = a
      · subst a'
        have hcell : (s.assign a M' (item.renewed M) u).items.cell a = some (item.renewed M) :=
          Heap.cell_put_self hr.here _
        simp only [hcell, Option.some.injEq, exists_eq_left']
        exact h.live_renewed hr hs href hold hnew
      · have hsame : M'.cell b = s.memory.cell b := by
          apply hr.cell_of_owner_ne href hs (hs.owner _ _ hold).1
          exact fun hother => haa (Option.some.inj (hold.symm.trans hother))
        have hitems : (s.items.put a (item.renewed M)).cell a' = s.items.cell a' :=
          Heap.cell_put_of_ne s.items _ haa
        simp only [State.assign, hsame, hitems]
        exact h.strings b a' hold

/-- The new string of a reference is never freed. -/
theorem not_exact_reference (hs : Kept s) (href : item.isReference = true) :
    ¬ Exact (s.assign a M' (item.renewed M) u) := by
  intro h
  obtain ⟨item', hitem', hmem⟩ := (h.strings _ a hr.claim_new).mp hr.cell_new_ne_none
  obtain rfl : item.renewed M = item' :=
    Option.some.inj ((Heap.cell_put_self hr.here _).symm.trans hitem')
  have hname : s.memory.fresh ∈ item.blocks := by
    rw [Item.blocks, owned_eq, href]
    simpa [Item.blocks, Item.renewed, owned_assigned, href, freed] using hmem
  have hlt := (hs.owner _ _ ((hs.item a item hr.here).owner hname)).1
  exact Nat.lt_irrefl _ hlt

end Assignment

theorem not_exact_undefined : ¬ Exact { s with undefined := true } := by
  intro h
  cases h.defined

/-- An assignment is undefined, or puts the text in the place of the string before. -/
theorem set_cases {u : List UInt8} (hs : Kept s) (hitem : s.items.cell a = some item)
    (htext : text s.memory str = some u) :
    s.set a item str u = { s with undefined := true } ∨
      str.block ∉ item.valuestring.toList.map Pointer.block ∧ ∃ M M', Replaces s a item M M' u ∧
        s.set a item str u = s.assign a M' (item.renewed M) u := by
  rcases writeString_cases s.memory str (hs.item a item hitem).kind with
    hundef | ⟨M, M', v, hfrees, hread, hadds, hvalue⟩
  · exact Or.inl (by simp [State.set, hundef])
  · have hother : str.block ∉ item.valuestring.toList.map Pointer.block :=
      fun hmem => live_of_text hread (hfrees.gone _ hmem)
    have hsame : text M str = text s.memory str := text_congr (hfrees.others _ hother)
    obtain rfl : v = u := Option.some.inj (hread.symm.trans (hsame.trans htext))
    exact Or.inr ⟨hother, M, M', ⟨hitem, hfrees, hadds⟩,
      by simp [State.set, hvalue, State.assign, Item.renewed]⟩

theorem set_iff {u : List UInt8} (hs : Kept s) (h : Exact s) (hitem : s.items.cell a = some item)
    (htext : text s.memory str = some u) :
    Exact (s.set a item str u) ↔ Careful s (.set a str) := by
  have hcases := set_cases hs hitem htext
  constructor
  · intro hexact item' hitem'
    obtain rfl : item = item' := Option.some.inj (hitem.symm.trans hitem')
    rcases hcases with hundef | ⟨hother, M, M', hr, heq⟩
    · rw [hundef] at hexact
      exact absurd hexact not_exact_undefined
    · rw [heq] at hexact
      refine ⟨?_, fun p hp hblock => ?_⟩
      · exact Bool.eq_false_iff.mpr fun href => not_exact_reference hr hs href hexact
      · exact hother (by simp [hp, hblock])
  · intro hcareful
    obtain ⟨href, hapart⟩ := hcareful item hitem
    rcases hcases with hundef | ⟨-, M, M', hr, heq⟩
    · have hdefined : writeString s.memory item str ≠ .undefined := by
        refine writeString_value (hs.item a item hitem).kind (fun q hq => ?_) htext
        refine ⟨h.freeable hs hitem q ?_, hapart q hq⟩
        simp [owned_eq, freed, href, hq]
      unfold State.set at hundef
      cases hwrite : writeString s.memory item str with
      | undefined => exact absurd hwrite hdefined
      | value r =>
        rw [hwrite] at hundef
        have hflag := congrArg State.undefined hundef
        cases h.defined.symm.trans hflag
      | throws e =>
        rw [hwrite] at hundef
        have hflag := congrArg State.undefined hundef
        cases h.defined.symm.trans hflag
    · rw [heq]
      exact h.assign hr hs href

theorem literalAt_fits {content : List UInt8} {offset : ℕ} {literal : Literal}
    (h : literalAt content offset = some literal) : literal.output.length < literal.size := by
  unfold literalAt at h
  cases hparse : parseLiteral content offset with
  | error before => simp [hparse, Except.toOption] at h
  | ok value =>
    obtain rfl : value = literal := by simpa [hparse, Except.toOption] using h
    exact parseLiteral_fits hparse

/-- What a step does when it is no assignment and destroys nothing. -/
inductive Quiet (s : State) : State → Prop
  | program (M : Memory) (K : Finset ℕ) (hfresh : s.memory.fresh ≤ M.fresh)
      (hsame : ∀ b, s.owner b ≠ none → M.cell b = s.memory.cell b)
      (hheld : ∀ b ∈ K, b < M.fresh ∧ s.owner b = none)
      (hlive : (∀ b ∈ s.held, s.memory.cell b ≠ none) → ∀ b ∈ K, M.cell b ≠ none) :
      Quiet s { s with memory := M, held := K }
  | join (M : Memory) (item : Item) (u : Option (List UInt8)) (hm : Makes s.memory M item u) :
      Quiet s (s.join u (M, item))

theorem Quiet.kept (h : Quiet s t) (hs : Kept s) : Kept t := by
  cases h with
  | program M K hfresh hsame hheld hlive => exact hs.program hfresh hsame hheld
  | join M item u hm => exact hs.join hm

theorem Quiet.exact (h : Quiet s t) (hs : Kept s) (he : Exact s) : Exact t := by
  cases h with
  | program M K hfresh hsame hheld hlive => exact he.program hs hsame (hlive he.spared)
  | join M item u hm => exact he.join hs hm

theorem quiet_buffer (hs : Kept s) (static : Bool) (bytes : List (Option UInt8)) :
    Quiet s { s with
      memory := s.memory.alloc ⟨static, bytes⟩
      held := insert s.memory.fresh s.held } := by
  have hlt : ∀ b, s.owner b ≠ none → b < s.memory.fresh := by
    intro b hb
    obtain ⟨a, ha⟩ := Option.ne_none_iff_exists'.mp hb
    exact (hs.owner b a ha).1
  refine .program _ _ (Nat.le_succ _) (fun b hb => ?_) (fun b hb => ?_) fun hlive b hb => ?_
  · exact Heap.cell_alloc_of_ne s.memory _ (Nat.ne_of_lt (hlt b hb))
  · rcases Finset.mem_insert.mp hb with rfl | hb
    · refine ⟨Nat.lt_succ_self _, ?_⟩
      by_contra howner
      exact Nat.lt_irrefl _ (hlt _ howner)
    · exact ⟨Nat.lt_succ_of_lt (hs.held b hb).1, (hs.held b hb).2⟩
  · rcases Finset.mem_insert.mp hb with rfl | hb
    · simp
    · obtain ⟨blk, hblk⟩ := Option.ne_none_iff_exists'.mp (hlive b hb)
      rw [Heap.cell_alloc_of_live _ hblk]
      exact Option.some_ne_none blk

theorem quiet_fill (hs : Kept s) (hb : b ∈ s.held) {f : Block → Block}
    (hM : s.memory.modify b f = some M) : Quiet s { s with memory := M } := by
  obtain ⟨blk, hblk⟩ : ∃ blk, s.memory.cell b = some blk := by
    by_contra hdead
    rw [Heap.modify_dead (Option.eq_none_iff_forall_ne_some.mpr (not_exists.mp hdead))] at hM
    cases hM
  obtain rfl := Option.some.inj ((Heap.modify_eq hblk f).symm.trans hM)
  refine .program _ s.held le_rfl (fun c hc => ?_) hs.held fun hlive c hc => ?_
  · exact Heap.cell_put_of_ne s.memory _ fun hcb => hc (hcb ▸ (hs.held b hb).2)
  · rw [Ne, Heap.cell_put_eq_none_iff hblk]
    exact hlive c hc

theorem quiet_release (hs : Kept s) (hb : b ∈ s.held) (hM : free s.memory ⟨b, 0⟩ = some M) :
    Quiet s { s with memory := M, held := s.held.erase b } := by
  obtain ⟨blk, hblk, -, rfl⟩ := free_cases hM
  refine .program _ _ le_rfl (fun c hc => ?_) (fun c hc => ?_) fun hlive c hc => ?_
  · exact Heap.cell_erase_of_ne s.memory fun hcb => hc (hcb ▸ (hs.held b hb).2)
  · exact hs.held c (Finset.mem_of_mem_erase hc)
  · rw [Heap.cell_erase_of_ne s.memory (Finset.ne_of_mem_erase hc)]
    exact hlive c (Finset.mem_of_mem_erase hc)

/-- What a step does. -/
theorem next_cases {op : Op} (hs : Kept s) (h : next s op = some t) :
    (Careful s op ∧ Quiet s t) ∨
      (∃ a str item u, op = .set a str ∧ s.items.cell a = some item ∧
        text s.memory str = some u ∧ t = s.set a item str u) ∨
      ∃ a item, op = .destroy a ∧ s.items.cell a = some item ∧ t = s.destroy a item := by
  unfold next at h
  split at h
  · cases h
  cases op with
  | buffer static bytes =>
    obtain rfl := Option.some.inj h
    exact Or.inl ⟨trivial, quiet_buffer hs static bytes⟩
  | fill b bytes =>
    obtain ⟨hb, h⟩ := Option.ite_none_right_eq_some.mp h
    obtain ⟨M, hM, rfl⟩ := Option.map_eq_some_iff.mp h
    exact Or.inl ⟨trivial, quiet_fill hs hb hM⟩
  | release b =>
    obtain ⟨hb, h⟩ := Option.ite_none_right_eq_some.mp h
    obtain ⟨M, hM, rfl⟩ := Option.map_eq_some_iff.mp h
    exact Or.inl ⟨trivial, quiet_release hs hb hM⟩
  | createString str =>
    obtain ⟨u, hu, h⟩ := Option.bind_eq_some_iff.mp h
    obtain ⟨M, item, hmade, hm⟩ := createString_makes hu
    obtain rfl := Option.some.inj h
    rw [hmade]
    exact Or.inl ⟨trivial, .join M item _ hm⟩
  | createStringRef str =>
    obtain rfl := Option.some.inj h
    exact Or.inl ⟨trivial, .join _ _ _ (createStringReference_makes s.memory str)⟩
  | parse content name offset =>
    cases name with
    | none =>
      obtain ⟨value, hvalue, h⟩ := Option.bind_eq_some_iff.mp h
      obtain ⟨M, item, hmade, hm⟩ := parseItem_makes s.memory none
        (fun _ hnone => by cases hnone) (literalAt_fits hvalue)
      obtain rfl := Option.some.inj h
      rw [hmade]
      exact Or.inl ⟨trivial, .join M item _ hm⟩
    | some name =>
      obtain ⟨literal, hname, h⟩ := Option.bind_eq_some_iff.mp h
      obtain ⟨value, hvalue, h⟩ := Option.bind_eq_some_iff.mp h
      obtain ⟨M, item, hmade, hm⟩ := parseItem_makes s.memory (some literal)
        (fun _ hsome => Option.some.inj hsome ▸ literalAt_fits hname) (literalAt_fits hvalue)
      obtain rfl := Option.some.inj h
      rw [hmade]
      exact Or.inl ⟨trivial, .join M item _ hm⟩
  | set a str =>
    obtain ⟨item, hitem, h⟩ := Option.bind_eq_some_iff.mp h
    obtain ⟨u, hu, h⟩ := Option.bind_eq_some_iff.mp h
    exact Or.inr (Or.inl ⟨a, str, item, u, rfl, hitem, hu, (Option.some.inj h).symm⟩)
  | destroy a =>
    obtain ⟨item, hitem, h⟩ := Option.bind_eq_some_iff.mp h
    exact Or.inr (Or.inr ⟨a, item, rfl, hitem, (Option.some.inj h).symm⟩)

theorem Kept.next {op : Op} (hs : Kept s) (h : next s op = some t) : Kept t := by
  rcases next_cases hs h with
    ⟨-, hquiet⟩ | ⟨a, str, item, u, -, hitem, hu, rfl⟩ | ⟨a, item, -, hitem, rfl⟩
  · exact hquiet.kept hs
  · rcases set_cases hs hitem hu with hundef | ⟨-, M, M', hr, heq⟩
    · rw [hundef]
      exact kept_undefined hs
    · rw [heq]
      exact hs.assign hr
  · unfold State.destroy
    cases hdelete : delete s.memory item with
    | none => exact kept_undefined hs
    | some M => exact hs.destroy (delete_frees hdelete) a

theorem exact_next_iff {op : Op} (hs : Kept s) (he : Exact s) (h : next s op = some t) :
    Exact t ↔ Careful s op := by
  rcases next_cases hs h with
    ⟨hcareful, hquiet⟩ | ⟨a, str, item, u, rfl, hitem, hu, rfl⟩ | ⟨a, item, rfl, hitem, rfl⟩
  · exact iff_of_true (hquiet.exact hs he) hcareful
  · exact set_iff hs he hitem hu
  · refine iff_of_true ?_ trivial
    obtain ⟨M, hdelete⟩ := delete_some (he.freeable hs hitem) (hs.item a item hitem).apart
    rw [State.destroy, hdelete]
    exact he.destroy hs hitem (delete_frees hdelete)

theorem kept_init : Kept init where
  item a item hitem := by cases hitem
  heap b blk hblk := by cases hblk
  owner b a hb := by cases hb
  held b hb := by cases hb

theorem exact_init : Exact init where
  defined := rfl
  holds a item hitem := by cases hitem
  spared b hb := by cases hb
  strings b a hb := by cases hb

/-- On nodes whose strings are values, such an assignment is the one that was modelled there. -/
theorem set_simulates {H : Nodes} {c : CJSON} {u : List UInt8} (foreign : ℕ → Bool)
    (hs : Kept s) (he : Exact s) (hitem : s.items.cell a = some item)
    (htext : text s.memory str = some u) (hcareful : Careful s (.set a str))
    (hc : H.cell a = some c) (htype : c.type = item.type) (ht : t = s.set a item str u) :
    ∃ item', t.items.cell a = some item' ∧
      Json.writeCString foreign H ⟨some a, false⟩ (Json.cStr u) = .value (H.put a { c with
        valuestring := (item'.valuestring.bind (text t.memory)).map Json.cStr }) := by
  subst ht
  have hexact := (set_iff hs he hitem htext).mpr hcareful
  have hkind : c.kind = cJSONString := by
    rw [CJSON.kind, htype]
    exact (hs.item a item hitem).kind
  have href : c.isReference = false := by
    rw [CJSON.isReference, htype]
    exact (hcareful item hitem).1
  rcases set_cases hs hitem htext with hundef | ⟨-, M, M', hr, heq⟩
  · rw [hundef] at hexact
    exact absurd hexact not_exact_undefined
  · refine ⟨item.renewed M, ?_, ?_⟩
    · rw [heq]
      exact Heap.cell_put_self hitem _
    · have hread : text (s.set a item str u).memory ⟨M.fresh, 0⟩ = some u := by
        rw [heq]
        exact hr.adds.text
      have hroot : (⟨some a, false⟩ : Json.JsonHolder).cjson = some a := rfl
      have hwrite := Json.writeCString_eq foreign hroot hc (Json.cStr u)
      rw [if_neg (not_not.mpr hkind), if_neg (by simp [href])] at hwrite
      rw [Item.renewed, Option.bind_some, hread, Option.map_some]
      exact hwrite

end Steps

/-- Assigning strings is exact in a run just when no string is assigned to a reference, or
from within the string that it takes the place of. -/
theorem exact_iff_careful (ops : List Op) :
    Throughout next Exact init ops ↔ StepsMeet next Careful init ops :=
  throughout_iff_of_step_iff (I := Kept) (fun _ _ _ hs h => hs.next h)
    (fun _ _ _ hs he h => exact_next_iff hs he h) kept_init exact_init

/-- A string is assigned to the item that it belongs to. -/
def ownText : List Op :=
  [.buffer true [some 97, some 0], .createString ⟨0, 0⟩, .set 0 ⟨1, 0⟩]

theorem own_text_lost : ¬ ∀ ops, Throughout next Exact init ops := by
  intro h
  have hundef : (run next init ownText).map State.undefined = some true := by decide
  obtain ⟨t, hrun, ht⟩ := Option.map_eq_some_iff.mp hundef
  cases ((h ownText).final hrun).defined.symm.trans ht

end BoxUtils.JsonStrings
