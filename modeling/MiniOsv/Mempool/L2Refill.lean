/-
# Mempool.L2Refill -- the batches that `l2::refill` pushes

`l2::refill` takes the pages of a batch one by one, stores the batch in its last page and pushes
that page.  Before it takes the first page it only makes sure that some page is free.  A round is
what happens from there on: the allocator is in any state that satisfies its invariant, whatever
the waits and the other threads did before.

* `World.Inv.allocPages_taken`: with enough pages free, the batch is complete;
* `World.Inv.allocPages_last`: otherwise its last page is null, which is where it is stored;
* `refillRound_sound_iff`: so a round is sound exactly in the states with a whole batch free;
* `World.Inv.refill`: the loop, with enough batches free and the pool left alone, ends half full.
-/
import MiniOsv.Mempool.Accounting

namespace MiniOsv.Mempool

open Theory List PageRangeAllocator Function

/-! ## The model -/

/-- A pointer to a page as a word of memory; null is 0. -/
def pagePointer : Option ℕ → ℕ
  | none => 0
  | some page => physMem + page

def pointedPage (word : ℕ) : Option ℕ := if word = 0 then none else some (word - physMem)

def pageGrant (page : ℕ) : Grant := ⟨page, pageSize, false⟩

/-- `l2`: `_max`, `_nr` and the stack of pointers to batches. -/
structure L2 where
  max : ℕ
  nr : ℕ
  stack : List ℕ
  deriving DecidableEq, Repr

namespace World

/-- `*pb = batch`. -/
def storeBatch : World → ℕ → List (Option ℕ) → World
  | w, _, [] => w
  | w, addr, page :: rest => storeBatch (w.stored addr (pagePointer page)) (addr + 8) rest

/-- `*pb`. -/
def loadBatch (w : World) (pb : ℕ) : List (Option ℕ) :=
  (List.range nrPages).map fun i => pointedPage (w.alloc.mem (pb + 8 * i))

/-- `l2::free_batch` of pages that were granted one by one; `none` is the failed assertion. -/
def freeBatch : World → List (Option ℕ) → Option World
  | w, [] => some w
  | _, none :: _ => none
  | w, some v :: rest => freeBatch (w.freePageRange (pageGrant v) (v, pageSize)) rest

end World

/-- `_stack.push(pb)`, and what is done when the stack is full. -/
def pushBatch (w : World) (l2 : L2) (pb : ℕ) (batch : List (Option ℕ)) : Option (World × L2) :=
  if l2.stack.length < l2.max then
    some (w, { l2 with nr := wrap64 (l2.nr + 1), stack := pb :: l2.stack })
  else (w.freeBatch batch).map fun w => (w, l2)

/-- A round of the loop of `l2::refill`.  `none` is a round that does not end: a store to the
null page faults. -/
def refillRound (w : World) (l2 : L2) : Option (World × L2) :=
  if l2.nr < l2.max / 2 then
    match (w.l2Refill.1[nrPages - 1]?).join with
    | none => none
    | some pb => pushBatch (w.l2Refill.2.storeBatch pb w.l2Refill.1) l2 pb w.l2Refill.1
  else some (w, l2)

/-- `l2::refill` while no other thread uses the pool, for at most `n` rounds. -/
def refill : ℕ → World → L2 → Option (World × L2)
  | 0, w, l2 => if l2.nr < l2.max / 2 then none else some (w, l2)
  | n + 1, w, l2 => (refillRound w l2).bind fun r => refill n r.1 r.2

/-! ## What a round should do -/

/-- `pb` points to a batch: different pages, all of them granted, stored in one of them. -/
structure Complete (w : World) (pb : ℕ) (pages : List ℕ) : Prop where
  count : pages.length = nrPages
  distinct : pages.Nodup
  granted : ∀ v ∈ pages, pageGrant v ∈ w.grants
  own : pb ∈ pages
  stored : w.loadBatch pb = pages.map some

/-- A complete batch of new pages is pushed, or nothing changes. -/
def SoundRound (w : World) (l2 : L2) (w' : World) (l2' : L2) : Prop :=
  (∃ pb pages, Complete w' pb pages ∧ (∀ v ∈ pages, pageGrant v ∉ w.grants) ∧
      l2' = { l2 with nr := wrap64 (l2.nr + 1), stack := pb :: l2.stack }) ∨
    l2' = l2 ∧ w'.grants = w.grants ∧ ∀ r, r ∈ w'.alloc.freeRanges ↔ r ∈ w.alloc.freeRanges

namespace World

variable {w w' : World} {F : Finset Extent} {n : ℕ} {pages : List ℕ}

/-! ## The pages of a batch -/

/-- The pages were taken from the allocator. -/
structure Taken (w w' : World) (pages : List ℕ) : Prop where
  added : w'.added = w.added
  buffer : w'.alloc.bufGrants = w.alloc.bufGrants
  grants : w'.grants = w.grants ∪ (pages.map pageGrant).toFinset
  fresh : ∀ v ∈ pages, pageGrant v ∉ w.grants
  distinct : pages.Nodup

theorem Taken.mem_grants (taken : Taken w w' pages) : ∀ v ∈ pages, pageGrant v ∈ w'.grants := by
  intro v mem
  rw [taken.grants]
  exact Finset.mem_union_right _ (mem_toFinset.2 (mem_map_of_mem mem))

/-- One page: it is granted, or nothing is free and nothing changes. -/
theorem Inv.allocPage (inv : Inv w F) :
    (w.alloc.alloc true pageSize true = (none, w.alloc) ∧ F = ∅) ∨
      ∃ page s' F', w.alloc.alloc true pageSize true = (some page, s') ∧
        Inv (w.granted (some page, s') pageSize false) F' ∧ total F = pageSize + total F' ∧
        Taken w (w.granted (some page, s') pageSize false) [page] := by
  have page : 0 < pageSize := by decide
  have spec := inv.core.alloc (show pageSize % pageSize = 0 by decide) page true
  obtain ⟨F', inv', -, sizes⟩ := inv.granted page spec
  rcases spec with failed | ⟨pr, s', F₁, result, core, store, cover⟩
  · refine .inl ⟨failed, Finset.not_nonempty_iff_eq_empty.1 ?_⟩
    rintro ⟨r, mem⟩
    exact inv.core.bare.rep.alloc_page mem (by rw [failed])
  · rw [result] at inv' sizes
    obtain ⟨-, split⟩ := sizes.resolve_left (by simp)
    refine .inr ⟨pr, s', F', result, inv', split, rfl,
      bufGrants_congr store.buf store.capacity, ?_, ?_, by simp⟩
    · simp [World.granted, pageGrant]
    · intro v mem taken
      obtain rfl := mem_singleton.1 mem
      have start : Extent.Covers (v, pageSize) v := ⟨le_refl _, Nat.lt_add_of_pos_right page⟩
      obtain ⟨r, inF, covers⟩ := (cover v).2 (.inl start)
      exact (inv.core.bare.layout.freeApart r inF _ (Finset.mem_union_left _ taken)).not_covers
        covers start

theorem Taken.cons {w₁ : World} {page : ℕ} (first : Taken w w₁ [page]) (rest : Taken w₁ w' pages) :
    Taken w w' (page :: pages) := by
  have mem₁ : ∀ g, g ∈ w₁.grants ↔ g ∈ w.grants ∨ g = pageGrant page := by
    intro g
    rw [first.grants]
    simp [or_comm]
  refine ⟨rest.added.trans first.added, rest.buffer.trans first.buffer, ?_, ?_, ?_⟩
  · rw [rest.grants, first.grants]
    simp
  · intro v mem old
    rcases mem_cons.1 mem with rfl | later
    · exact first.fresh v mem_cons_self old
    · exact rest.fresh v later ((mem₁ _).2 (.inl old))
  · refine nodup_cons.2 ⟨fun again => ?_, rest.distinct⟩
    exact rest.fresh page again ((mem₁ _).2 (.inr rfl))

theorem Inv.allocPages_taken (inv : Inv w F) (enough : n * pageSize ≤ total F) :
    ∃ pages F', (World.allocPages n w).1 = pages.map some ∧ pages.length = n ∧
      Inv (World.allocPages n w).2 F' ∧ total F = n * pageSize + total F' ∧
      Taken w (World.allocPages n w).2 pages := by
  induction n generalizing w F with
  | zero =>
    exact ⟨[], F, rfl, rfl, inv, by simp, rfl, rfl, by simp [World.allocPages], by simp, nodup_nil⟩
  | succ n ih =>
    rw [Nat.succ_mul] at enough
    rcases inv.allocPage with ⟨-, rfl⟩ | ⟨page, s', F₁, result, inv₁, split, first⟩
    · simp [total, pageSize] at enough
    · obtain ⟨pages, F', batch, length, inv', sum, rest⟩ := ih inv₁ (by omega)
      rw [World.allocPages, result]
      exact ⟨page :: pages, F', by simp [batch], by simp [length], inv',
        by rw [Nat.succ_mul]; omega, first.cons rest⟩

theorem Inv.allocPages_last (inv : Inv w F) (pos : 0 < n) (few : total F < n * pageSize) :
    ((World.allocPages n w).1[n - 1]?).join = none := by
  induction n generalizing w F with
  | zero => exact absurd pos (lt_irrefl 0)
  | succ n ih =>
    rw [World.allocPages]
    rw [Nat.succ_mul] at few
    rcases inv.allocPage with ⟨failed, rfl⟩ | ⟨page, s', F₁, result, inv₁, split, -⟩
    · rw [failed]
      rcases Nat.eq_zero_or_pos n with rfl | more
      · rfl
      · rw [Nat.add_sub_cancel, List.getElem?_cons, if_neg (by omega)]
        exact ih inv more (Nat.mul_pos more (by decide))
    · have more : 0 < n := by
        rcases Nat.eq_zero_or_pos n with rfl | more
        · omega
        · exact more
      rw [result, Nat.add_sub_cancel, List.getElem?_cons, if_neg (by omega)]
      exact ih inv₁ more (by omega)

/-! ## The batch in memory -/

theorem storeBatch_below (batch : List (Option ℕ)) (w : World) {addr x : ℕ} (below : x < addr) :
    (w.storeBatch addr batch).alloc.mem x = w.alloc.mem x := by
  induction batch generalizing w addr with
  | nil => rfl
  | cons page rest ih =>
    rw [storeBatch, ih _ (by omega)]
    exact update_of_ne (Nat.ne_of_lt below) _ _

theorem storeBatch_mem (batch : List (Option ℕ)) (w : World) (addr : ℕ) {i : ℕ}
    (small : i < batch.length) :
    (w.storeBatch addr batch).alloc.mem (addr + 8 * i) = pagePointer (batch.get ⟨i, small⟩) := by
  induction batch generalizing w addr i with
  | nil => simp at small
  | cons page rest ih =>
    rw [storeBatch]
    cases i with
    | zero =>
      rw [storeBatch_below _ _ (by omega)]
      exact update_self _ _ _
    | succ i =>
      rw [show addr + 8 * (i + 1) = addr + 8 + 8 * i by omega]
      exact ih _ _ (by simpa using small)

theorem loadBatch_storeBatch (w : World) (pb : ℕ) (count : pages.length = nrPages) :
    (w.storeBatch pb (pages.map some)).loadBatch pb = pages.map some := by
  refine ext_get (by simp [loadBatch, count]) fun i small bound => ?_
  have within : i < (pages.map some).length := bound
  simp only [loadBatch, get_eq_getElem, getElem_map, getElem_range]
  rw [storeBatch_mem _ _ _ within]
  simp [pointedPage, pagePointer, physMem]

/-- The page is the owner's, so the store keeps the allocator's invariant. -/
theorem Inv.storeBatch {g : Grant} (batch : List (Option ℕ)) (inv : Inv w F) (mem : g ∈ w.grants)
    {addr : ℕ} (low : g.start ≤ addr) (high : addr + 8 * batch.length ≤ g.start + g.size)
    (word : addr % 8 = 0) :
    Inv (w.storeBatch addr batch) F ∧ (w.storeBatch addr batch).grants = w.grants ∧
      (w.storeBatch addr batch).added = w.added ∧
      (w.storeBatch addr batch).alloc.bufGrants = w.alloc.bufGrants := by
  induction batch generalizing w addr with
  | nil => exact ⟨inv, rfl, rfl, rfl⟩
  | cons page rest ih =>
    rw [length_cons] at high
    have inside : g.extent.Covers addr := by
      simp only [Grant.extent, Extent.Covers]
      omega
    have low' : g.start ≤ addr + 8 := by omega
    exact ih (inv.stored mem inside word) mem low' (by omega) (by omega)

/-! ## The stack is full -/

theorem Inv.freePage {v : ℕ} (inv : Inv w F) (mem : pageGrant v ∈ w.grants) :
    ∃ F', Inv (w.freePageRange (pageGrant v) (v, pageSize)) F' ∧
      (w.freePageRange (pageGrant v) (v, pageSize)).added = w.added ∧
      (w.freePageRange (pageGrant v) (v, pageSize)).alloc.bufGrants = w.alloc.bufGrants ∧
      (w.freePageRange (pageGrant v) (v, pageSize)).grants = w.grants.erase (pageGrant v) := by
  have wf := inv.core.bare.layout.grantWf _ (Finset.mem_union_left _ mem)
  have word : v % 8 = 0 := by
    have aligned := wf.aligned
    simp only [Grant.extent, pageGrant, pageSize] at aligned
    omega
  have start : (pageGrant v).extent.Covers v := ⟨le_refl _, Nat.lt_add_of_pos_right wf.pos⟩
  have written : Inv ((w.stored v pageSize).onFree pageSize) F :=
    (inv.stored mem start word).onFree pageSize
  have header : ((w.stored v pageSize).onFree pageSize).alloc.mem v = pageSize :=
    update_self _ _ _
  obtain ⟨F', inv', -⟩ := written.freed mem (Grant.piece_whole wf) header
  have same : w.freePageRange (pageGrant v) (v, pageSize) =
      ((w.stored v pageSize).onFree pageSize).freed (pageGrant v) (pageGrant v).extent := by
    simp [World.freePageRange, freePageRangeLocked, World.freed, World.onFree,
      World.stored, Grant.extent, pageGrant]
  have store := free_store ((w.stored v pageSize).onFree pageSize).alloc v
  rw [same]
  refine ⟨F', inv', rfl, bufGrants_congr store.buf store.capacity, ?_⟩
  show release w.grants (pageGrant v) (pageGrant v).extent = _
  rw [release, Grant.leftover_whole, Finset.union_empty]

theorem Inv.freeBatch (inv : Inv w F) (distinct : pages.Nodup)
    (granted : ∀ v ∈ pages, pageGrant v ∈ w.grants) :
    ∃ w' F', w.freeBatch (pages.map some) = some w' ∧ Inv w' F' ∧ w'.added = w.added ∧
      w'.alloc.bufGrants = w.alloc.bufGrants ∧
      w'.grants = w.grants \ (pages.map pageGrant).toFinset := by
  induction pages generalizing w F with
  | nil => exact ⟨w, F, rfl, inv, rfl, rfl, by simp⟩
  | cons v rest ih =>
    obtain ⟨F₁, inv₁, added₁, buffer₁, grants₁⟩ := inv.freePage (granted v mem_cons_self)
    obtain ⟨notRest, distinctRest⟩ := nodup_cons.1 distinct
    obtain ⟨w', F', result, inv', added, buffer, grants⟩ := ih inv₁ distinctRest fun u mem => by
      rw [grants₁]
      refine Finset.mem_erase.2 ⟨fun same => ?_, granted u (mem_cons_of_mem _ mem)⟩
      obtain rfl : u = v := congrArg Grant.start same
      exact notRest mem
    refine ⟨w', F', result, inv', added.trans added₁, buffer.trans buffer₁, ?_⟩
    rw [grants, grants₁]
    ext g
    simp only [Finset.mem_sdiff, Finset.mem_erase, map_cons, toFinset_cons,
      Finset.mem_insert, not_or]
    tauto

end World

/-! ## A round -/

theorem World.l2Refill_eq (w : World) : w.l2Refill =
    ((World.allocPages nrPages w).1, (World.allocPages nrPages w).2.onAlloc (nrPages * pageSize)) := by
  simp only [World.l2Refill]

/-- A complete batch is pushed, or freed when the stack is full. -/
theorem World.Inv.pushBatch_sound {w w₁ : World} {F F₁ : Finset Extent} (inv : Inv w F)
    (inv₁ : Inv w₁ F₁) {pages : List ℕ} (taken : Taken w w₁ pages) (count : pages.length = nrPages)
    {pb : ℕ} (own : pb ∈ pages) (mem : ℕ) (l2 : L2) :
    ∃ w' l2' F', pushBatch ((w₁.onAlloc mem).storeBatch pb (pages.map some)) l2 pb
        (pages.map some) = some (w', l2') ∧ SoundRound w l2 w' l2' ∧ Inv w' F' ∧
      (l2.stack.length < l2.max →
        F' = F₁ ∧ l2' = { l2 with nr := wrap64 (l2.nr + 1), stack := pb :: l2.stack }) := by
  have charged := inv₁.onAlloc mem
  have granted : pageGrant pb ∈ (w₁.onAlloc mem).grants := taken.mem_grants pb own
  have word : pb % 8 = 0 := by
    have aligned := (charged.core.bare.layout.grantWf _ (Finset.mem_union_left _ granted)).aligned
    simp only [Grant.extent, pageGrant, pageSize] at aligned
    omega
  obtain ⟨inv₂, grants₂, added₂, buffer₂⟩ := charged.storeBatch (pages.map some) granted (le_refl pb)
    (by rw [length_map, count]; simp [pageGrant, nrPages, pageSize]) word
  rw [pushBatch]
  split
  case isTrue room =>
    refine ⟨_, _, F₁, rfl, .inl ⟨pb, pages, ⟨count, taken.distinct, fun v mem => ?_, own, ?_⟩,
      taken.fresh, rfl⟩, inv₂, fun _ => ⟨rfl, rfl⟩⟩
    · rw [grants₂]
      exact taken.mem_grants v mem
    · exact loadBatch_storeBatch _ _ count
  case isFalse full =>
    obtain ⟨w', F', result, inv', added, buffer, grants⟩ := inv₂.freeBatch taken.distinct
      fun v mem => by
        rw [grants₂]
        exact taken.mem_grants v mem
    have sameGrants : w'.grants = w.grants := by
      have taken₁ : (w₁.onAlloc mem).grants = _ := taken.grants
      rw [grants, grants₂, taken₁, Finset.union_sdiff_right, Finset.sdiff_eq_self_iff_disjoint,
        Finset.disjoint_right]
      intro g mem old
      obtain ⟨v, inPages, rfl⟩ := mem_map.1 (mem_toFinset.1 mem)
      exact taken.fresh v inPages old
    have sameAdded : w'.added = w.added := (added.trans added₂).trans taken.added
    have sameBuffer : w'.alloc.bufGrants = w.alloc.bufGrants :=
      (buffer.trans buffer₂).trans taken.buffer
    refine ⟨w', l2, F', by rw [result]; rfl, .inr ⟨rfl, sameGrants, ?_⟩, inv', (absurd · full)⟩
    refine inv.freeRanges_eq inv' sameAdded fun x => ?_
    rw [outstanding, outstanding, sameGrants, sameBuffer]

namespace World

variable {w : World} {F : Finset Extent}

/-- A round with a whole batch free is sound and keeps the invariant; with room on the stack the
batch is pushed. -/
theorem Inv.refillRound (inv : Inv w F) (l2 : L2) (low : l2.nr < l2.max / 2)
    (enough : nrPages * pageSize ≤ total F) :
    ∃ w' l2' F', refillRound w l2 = some (w', l2') ∧ SoundRound w l2 w' l2' ∧ Inv w' F' ∧
      (l2.stack.length < l2.max → total F = nrPages * pageSize + total F' ∧
        ∃ pb, l2' = { l2 with nr := wrap64 (l2.nr + 1), stack := pb :: l2.stack }) := by
  obtain ⟨pages, F₁, batch, count, inv₁, sum, taken⟩ := inv.allocPages_taken enough
  have last : nrPages - 1 < pages.length := by
    rw [count]
    decide
  obtain ⟨pb, atLast⟩ : ∃ pb, pages[nrPages - 1]? = some pb := ⟨_, List.getElem?_eq_getElem last⟩
  have own : pb ∈ pages := mem_of_getElem? atLast
  have stored : ((pages.map some)[nrPages - 1]?).join = some pb := by
    rw [List.getElem?_map, atLast]
    rfl
  rw [Mempool.refillRound, if_pos low, l2Refill_eq, batch, stored]
  obtain ⟨w', l2', F', result, sound, inv', pushed⟩ :=
    inv.pushBatch_sound inv₁ taken count own (nrPages * pageSize) l2
  refine ⟨w', l2', F', result, sound, inv', fun room => ?_⟩
  obtain ⟨rfl, same⟩ := pushed room
  exact ⟨sum, pb, same⟩

/-- **`l2::refill` ends with the pool half full**, and every round on the way is sound. -/
theorem Inv.refill (inv : Inv w F) (l2 : L2) (counted : l2.stack.length = l2.nr)
    (word : l2.max < 2 ^ 64) (enough : (l2.max / 2 - l2.nr) * (nrPages * pageSize) ≤ total F) :
    ∃ w' l2' F', refill (l2.max / 2 - l2.nr) w l2 = some (w', l2') ∧ Inv w' F' ∧
      l2'.nr = max l2.nr (l2.max / 2) ∧ l2'.stack.length = l2'.nr ∧
      Relation.ReflTransGen (fun a b => SoundRound a.1 a.2 b.1 b.2) (w, l2) (w', l2') := by
  generalize rounds : l2.max / 2 - l2.nr = n at enough ⊢
  induction n generalizing w F l2 with
  | zero => exact ⟨w, l2, F, if_neg (by omega), inv, by omega, counted, .refl⟩
  | succ n ih =>
    rw [Nat.succ_mul] at enough
    obtain ⟨w₁, l2₁, F₁, result, sound, inv₁, pushed⟩ := inv.refillRound l2 (by omega) (by omega)
    obtain ⟨sum, pb, rfl⟩ := pushed (by omega)
    have next : wrap64 (l2.nr + 1) = l2.nr + 1 := Nat.mod_eq_of_lt (by omega)
    rw [next] at result sound
    obtain ⟨w', l2', F', rest, inv', half, counted', run⟩ := ih inv₁
      { l2 with nr := l2.nr + 1, stack := pb :: l2.stack } (by simp [counted]) word
      (by simp only; omega) (by omega)
    refine ⟨w', l2', F', ?_, inv', by simp only at half; omega, counted', .head sound run⟩
    rw [Mempool.refill, result]
    exact rest

end World

open World in
/-- **A round of `l2::refill` pushes a complete batch or changes nothing, exactly when the
page-range allocator has a whole batch of pages**, or the pool is half full and there is nothing
to do. -/
theorem refillRound_sound_iff {w : World} {F : Finset Extent} (inv : Inv w F) (l2 : L2) :
    (∃ w' l2', refillRound w l2 = some (w', l2') ∧ SoundRound w l2 w' l2') ↔
      l2.max / 2 ≤ l2.nr ∨ nrPages * pageSize ≤ w.alloc.freeBytes := by
  rw [inv.core.bare.rep.freeBytes, refillRound]
  split
  case isFalse full =>
    exact iff_of_true ⟨w, l2, rfl, .inr ⟨rfl, rfl, fun r => Iff.rfl⟩⟩ (.inl (by omega))
  case isTrue low =>
    rcases Nat.lt_or_ge (total F) (nrPages * pageSize) with few | enough
    · rw [l2Refill_eq, inv.allocPages_last (by decide) few]
      refine iff_of_false ?_ (by omega)
      rintro ⟨w', l2', stuck, -⟩
      cases stuck
    · obtain ⟨w', l2', -, result, sound, -⟩ := inv.refillRound l2 low enough
      rw [refillRound, if_pos low] at result
      exact iff_of_true ⟨w', l2', result, sound⟩ (.inr enough)

/-- A round on an empty pool with 70000 pages free. -/
theorem sampleWorld_refill :
    ∃ w' l2', refillRound sampleWorld ⟨8, 0, []⟩ = some (w', l2') ∧
      SoundRound sampleWorld ⟨8, 0, []⟩ w' l2' := by
  obtain ⟨F, inv⟩ := sampleWorld_reached.inv
  exact (refillRound_sound_iff inv _).2 (.inr (by decide +kernel))

/-- With three pages free a round takes them all and then stores the batch in a null page. -/
theorem fourPages_refill :
    Reachable World.Initial (Section.Step Section.Sound) fourPages ∧
      refillRound fourPages ⟨8, 0, []⟩ = none ∧
      fourPages.alloc.freeBytes = 3 * pageSize ∧ fourPages.l2Refill.2.alloc.freeBytes = 0 :=
  ⟨fourPages_reached _ trivial, Option.isNone_iff_eq_none.1 (by decide +kernel), by decide +kernel,
    by decide +kernel⟩

end MiniOsv.Mempool
