/-
# Timer.TimerExpire -- expire moves exactly the passed timers

The three parts of `expire` in turn: the splice of the buckets above the index of the new
time point, the loop over the bucket at that index, and the search for the next timeout.
The contract of the whole structure over all runs is `reached_timerSet`.
-/
import MiniOsv.Timer.TimerInvariant

namespace MiniOsv.Timer

open Theory List Bitset
open Function (update update_self update_of_ne)

namespace TimerSet

variable {τ : Type} {s : TimerSet τ}

/-! ## The splice -/

theorem foldl_spliceBucket (is : List ℕ) (s : TimerSet τ) :
    (is.foldl spliceBucket s).last = s.last ∧ (is.foldl spliceBucket s).next = s.next ∧
      (∀ j, (is.foldl spliceBucket s).buckets j = if j ∈ is then [] else s.buckets j) ∧
      (∀ j, (is.foldl spliceBucket s).nonEmptyBuckets.testBit j =
        if j ∈ is then false else s.nonEmptyBuckets.testBit j) ∧
      ∀ e, e ∈ (is.foldl spliceBucket s).expired ↔
        e ∈ s.expired ∨ ∃ i ∈ is, e ∈ s.buckets i := by
  induction is generalizing s with
  | nil => simp
  | cons i is ih =>
    obtain ⟨last, next, buckets, bits, expired⟩ := ih (s.spliceBucket i)
    refine ⟨last, next, fun j => ?_, fun j => ?_, fun e => ?_⟩
    · rw [foldl_cons, buckets]
      by_cases same : j = i <;> simp [spliceBucket, same]
    · rw [foldl_cons, bits]
      by_cases same : j = i <;> simp [spliceBucket, same]
    · rw [foldl_cons, expired]
      simp only [spliceBucket, mem_append, mem_cons, exists_eq_or_imp, or_assoc]
      refine or_congr_right ?_
      constructor
      · rintro (here | ⟨j, mem, there⟩)
        · exact .inl here
        · by_cases same : j = i
          · simp [same] at there
          · exact .inr ⟨j, mem, by rwa [update_of_ne same] at there⟩
      · rintro (here | ⟨j, mem, there⟩)
        · exact .inl here
        · by_cases same : j = i
          · exact .inl (same ▸ there)
          · exact .inr ⟨j, mem, by rwa [update_of_ne same]⟩

theorem foldl_spliceBucket_word (is : List ℕ) (small : ∀ i ∈ is, i < 64)
    (word : s.nonEmptyBuckets < 2 ^ 64) : (is.foldl spliceBucket s).nonEmptyBuckets < 2 ^ 64 := by
  induction is generalizing s with
  | nil => exact word
  | cons i is ih =>
    exact ih (fun j mem => small j (mem_cons_of_mem _ mem))
      (set_lt word (small i mem_cons_self) _)

/-! ## The loop over one bucket -/

/-- The state in the loop: the reference point has moved to `now`, the timers of the bucket at
`index` are still to be looked at. -/
structure Draining (now : ℤ) (index : ℕ) (s : TimerSet τ) : Prop where
  last : s.last = now
  word : s.nonEmptyBuckets < 2 ^ 64
  bits : ∀ i, i ≠ index → (s.nonEmptyBuckets.testBit i = true ↔ s.buckets i ≠ [])
  home : ∀ i, i ≠ index → ∀ e ∈ s.buckets i, indexOf now e.timeout = i ∧ now < e.timeout
  bound : ∀ i, ∀ e ∈ s.buckets i, e.timeout ≤ maxTimestamp
  closer : ∀ e ∈ s.buckets index, now < e.timeout → index < indexOf now e.timeout
  nodup : ∀ i, (s.buckets i).Nodup
  apart : ∀ e ∈ s.buckets index, ∀ i, i ≠ index → e ∉ s.buckets i
  /-- The next timeout is right for the timers above the index. -/
  nextLe : ∀ i, index < i → ∀ e ∈ s.buckets i, s.next ≤ e.timeout
  nextAt : s.next = maxTimestamp ∨ ∃ i, index < i ∧ ∃ e ∈ s.buckets i, s.next = e.timeout

section Drain

variable {now : ℤ} {index : ℕ} {e : Entry τ} {rest : List (Entry τ)}

theorem Draining.pop (inv : Draining now index s) (head : s.buckets index = e :: rest) :
    Draining now index { s with buckets := update s.buckets index rest } ∧
      ∀ i, e ∉ update s.buckets index rest i := by
  have subset : ∀ i f, f ∈ update s.buckets index rest i → f ∈ s.buckets i := by
    intro i f mem
    by_cases here : i = index
    · subst here
      rw [update_self] at mem
      rw [head]
      exact mem_cons_of_mem _ mem
    · rwa [update_of_ne here] at mem
  have nodup := inv.nodup index
  rw [head, nodup_cons] at nodup
  refine ⟨⟨inv.last, inv.word, ?_, ?_, ?_, ?_, ?_, ?_, ?_, ?_⟩, ?_⟩
  · intro i ne
    simpa [ne] using inv.bits i ne
  · exact fun i ne f mem => inv.home i ne f (subset i f mem)
  · exact fun i f mem => inv.bound i f (subset i f mem)
  · exact fun f mem => inv.closer f (subset index f mem)
  · intro i
    by_cases here : i = index
    · subst here
      simpa using nodup.2
    · simpa [here] using inv.nodup i
  · exact fun f mem i ne other => inv.apart f (subset index f mem) i ne (subset i f other)
  · exact fun i lt f mem => inv.nextLe i lt f (subset i f mem)
  · refine inv.nextAt.imp id ?_
    rintro ⟨i, lt, f, mem, same⟩
    exact ⟨i, lt, f, by simpa [lt.ne'] using mem, same⟩
  · intro i mem
    by_cases here : i = index
    · subst here
      rw [update_self] at mem
      exact nodup.1 mem
    · rw [update_of_ne here] at mem
      exact inv.apart e (by rw [head]; exact mem_cons_self) i here mem

theorem Draining.insert (inv : Draining now index s) (fresh : ∀ i, e ∉ s.buckets i)
    (high : e.timeout ≤ maxTimestamp) (ahead : now < e.timeout)
    (closer : index < indexOf now e.timeout) : Draining now index (s.insert e).1 := by
  obtain ⟨last, -, next, bits⟩ := insert_rest s e
  have place : s.getIndex e.timeout = indexOf now e.timeout := by rw [getIndex_eq, inv.last]
  have members := fun i f => mem_insert_buckets s e f i
  simp only [place] at members bits
  have buckets := insert_buckets s e
  rw [place] at buckets
  have there : ∀ i, i ≠ indexOf now e.timeout → (s.insert e).1.buckets i = s.buckets i := by
    intro i ne
    rw [buckets, update_of_ne ne]
  refine ⟨last.trans inv.last, ?_, ?_, ?_, ?_, ?_, ?_, ?_, ?_, ?_⟩
  · rw [bits]
    exact set_lt inv.word (Nat.lt_succ_of_le (indexOf_le _ _)) _
  · intro i ne
    rw [bits, set_testBit]
    by_cases here : i = indexOf now e.timeout
    · simp [here, buckets]
    · rw [if_neg here, inv.bits i ne, there i here]
  · intro i ne f mem
    rcases (members i f).1 mem with old | ⟨rfl, rfl⟩
    · exact inv.home i ne f old
    · exact ⟨rfl, ahead⟩
  · intro i f mem
    rcases (members i f).1 mem with old | ⟨rfl, rfl⟩
    · exact inv.bound i f old
    · exact high
  · intro f mem
    rw [there index closer.ne] at mem
    exact inv.closer f mem
  · intro i
    by_cases here : i = indexOf now e.timeout
    · rw [here, buckets, update_self, nodup_append]
      refine ⟨inv.nodup _, by simp, fun f mem g last => ?_⟩
      rw [mem_singleton.1 last]
      rintro rfl
      exact fresh _ mem
    · rw [there i here]
      exact inv.nodup i
  · intro f mem i ne other
    rw [there index closer.ne] at mem
    rcases (members i f).1 other with old | ⟨rfl, rfl⟩
    · exact inv.apart f mem i ne old
    · exact fresh index mem
  · intro i lt f mem
    rw [next]
    rcases (members i f).1 mem with old | ⟨rfl, rfl⟩
    · exact (min_le_left _ _).trans (inv.nextLe i lt f old)
    · exact min_le_right _ _
  · rw [next]
    rcases le_total s.next e.timeout with le | le
    · rw [min_eq_left le]
      refine inv.nextAt.imp id ?_
      rintro ⟨i, lt, f, mem, same⟩
      exact ⟨i, lt, f, (members i f).2 (.inl mem), same⟩
    · rw [min_eq_right le]
      exact .inr ⟨_, closer, e, (members _ e).2 (.inr ⟨rfl, rfl⟩), rfl⟩

/-- **The loop** empties the bucket: passed timers expire, the others are filed again. -/
theorem Draining.drainBucket (inv : Draining now index s) {fuel : ℕ}
    (enough : (s.buckets index).length < fuel) :
    ∃ s', drainBucket now index fuel s = some s' ∧ Draining now index s' ∧
      s'.buckets index = [] ∧
      (∀ f, f ∈ s'.expired ↔ f ∈ s.expired ∨ f ∈ s.buckets index ∧ f.timeout ≤ now) ∧
      ∀ f, s'.Active f ↔ (∃ i, i ≠ index ∧ f ∈ s.buckets i) ∨
        f ∈ s.buckets index ∧ now < f.timeout := by
  induction fuel generalizing s with
  | zero => exact absurd enough (Nat.not_lt_zero _)
  | succ fuel ih =>
    unfold drainBucket
    cases head : s.buckets index with
    | nil =>
      refine ⟨s, rfl, inv, head, by simp, fun f => ?_⟩
      simp only [not_mem_nil, false_and, or_false, Active]
      constructor
      · rintro ⟨i, mem⟩
        refine ⟨i, ?_, mem⟩
        rintro rfl
        simp [head] at mem
      · rintro ⟨i, -, mem⟩
        exact ⟨i, mem⟩
    | cons e rest =>
      rw [head, length_cons] at enough
      obtain ⟨popped, fresh⟩ := inv.pop head
      have memE : e ∈ s.buckets index := by rw [head]; exact mem_cons_self
      by_cases past : e.timeout ≤ now
      · simp only [if_pos past]
        obtain ⟨s', result, inv', empty, expired, active⟩ := ih
          (s := { s with
            buckets := update s.buckets index rest
            expired := s.expired ++ [e] })
          ⟨popped.last, popped.word, popped.bits, popped.home, popped.bound, popped.closer,
            popped.nodup, popped.apart, popped.nextLe, popped.nextAt⟩
          (by simpa using Nat.lt_of_succ_lt_succ enough)
        refine ⟨s', result, inv', empty, fun f => ?_, fun f => ?_⟩
        · rw [expired]
          simp only [mem_append, mem_cons, not_mem_nil, or_false, update_self]
          constructor
          · rintro ((old | rfl) | ⟨mem, le⟩)
            · exact .inl old
            · exact .inr ⟨.inl rfl, past⟩
            · exact .inr ⟨.inr mem, le⟩
          · rintro (old | ⟨rfl | mem, le⟩)
            · exact .inl (.inl old)
            · exact .inl (.inr rfl)
            · exact .inr ⟨mem, le⟩
        · rw [active]
          refine or_congr (exists_congr fun i => and_congr_right fun ne => ?_) ?_
          · simp only [update_of_ne ne]
          · simp only [update_self, mem_cons]
            refine and_congr_left fun ahead => ?_
            refine ⟨.inr, fun mem => mem.resolve_left ?_⟩
            rintro rfl
            exact absurd past (Int.not_le.2 ahead)
      · simp only [if_neg past]
        have ahead : now < e.timeout := Int.not_le.1 past
        have closer := inv.closer e memE ahead
        have filed := popped.insert fresh (inv.bound index e memE) ahead closer
        have place : getIndex { s with buckets := update s.buckets index rest }
            e.timeout = indexOf now e.timeout := by rw [getIndex_eq]; simp only [inv.last]
        have members := fun i f =>
          mem_insert_buckets { s with buckets := update s.buckets index rest } e f i
        have kept := (insert_rest { s with
          buckets := update s.buckets index rest } e).2.1
        have same : (TimerSet.insert { s with
            buckets := update s.buckets index rest } e).1.buckets index = rest := by
          rw [insert_buckets, place, update_of_ne closer.ne]
          exact update_self _ _ _
        obtain ⟨s', result, inv', empty, expired, active⟩ := ih filed
          (by rw [same]; exact Nat.lt_of_succ_lt_succ enough)
        refine ⟨s', result, inv', empty, fun f => ?_, fun f => ?_⟩
        · rw [expired, kept, same]
          refine or_congr_right (and_congr_left fun le => ?_)
          rw [mem_cons]
          refine ⟨.inr, fun mem => mem.resolve_left ?_⟩
          rintro rfl
          exact past le
        · rw [active, same, mem_cons]
          simp only [members, place]
          constructor
          · rintro (⟨i, ne, old | ⟨rfl, rfl⟩⟩ | ⟨mem, lt⟩)
            · exact .inl ⟨i, ne, by simpa [ne] using old⟩
            · exact .inr ⟨.inl rfl, ahead⟩
            · exact .inr ⟨.inr mem, lt⟩
          · rintro (⟨i, ne, old⟩ | ⟨rfl | mem, lt⟩)
            · exact .inl ⟨i, ne, .inl (by simpa [ne] using old)⟩
            · exact .inl ⟨_, closer.ne', .inr ⟨rfl, rfl⟩⟩
            · exact .inr ⟨mem, lt⟩

end Drain

/-! ## The whole of `expire` -/

theorem nextFrom_le (next : ℤ) (list : List (Entry τ)) :
    nextFrom next list ≤ next ∧ ∀ e ∈ list, nextFrom next list ≤ e.timeout := by
  induction list generalizing next with
  | nil => exact ⟨le_rfl, by simp⟩
  | cons f list ih =>
    obtain ⟨le, all⟩ := ih (min next f.timeout)
    refine ⟨le.trans (min_le_left _ _), fun e mem => ?_⟩
    rcases mem_cons.1 mem with rfl | deep
    · exact le.trans (min_le_right _ _)
    · exact all e deep

theorem nextFrom_mem (next : ℤ) (list : List (Entry τ)) :
    nextFrom next list = next ∨ ∃ e ∈ list, nextFrom next list = e.timeout := by
  induction list generalizing next with
  | nil => exact .inl rfl
  | cons f list ih =>
    rcases ih (min next f.timeout) with same | ⟨e, mem, same⟩
    · rcases min_choice next f.timeout with left | right
      · exact .inl (same.trans left)
      · exact .inr ⟨f, mem_cons_self, same.trans right⟩
    · exact .inr ⟨e, mem_cons_of_mem _ mem, same⟩

/-- The next timeout is the smallest one of an active timer, or the maximum. -/
def NextExact (s : TimerSet τ) : Prop :=
  (∀ e, s.Active e → s.next ≤ e.timeout) ∧
    (s.next = maxTimestamp ∧ (∀ e, ¬s.Active e) ∨ ∃ e, s.Active e ∧ s.next = e.timeout)

theorem Inv.draining (inv : s.Inv) {now : ℤ} (later : s.last ≤ now) (high : now ≤ maxTimestamp) :
    Draining now (s.getIndex now)
        { (forEachSet s.nonEmptyBuckets (s.getIndex now + 1)).foldl spliceBucket s with
          last := now
          next := maxTimestamp } ∧
      (∀ j, ((forEachSet s.nonEmptyBuckets (s.getIndex now + 1)).foldl spliceBucket s).buckets
        j = if s.getIndex now < j then [] else s.buckets j) ∧
      ∀ e, e ∈ ((forEachSet s.nonEmptyBuckets (s.getIndex now + 1)).foldl
        spliceBucket s).expired ↔ e ∈ s.expired ∨ ∃ i, s.getIndex now < i ∧ e ∈ s.buckets i := by
  have touched : ∀ j, j ∈ forEachSet s.nonEmptyBuckets (s.getIndex now + 1) ↔
      s.getIndex now < j ∧ s.buckets j ≠ [] := fun j => by
    rw [mem_forEachSet inv.word, inv.bits, Nat.succ_le_iff]
  have word := foldl_spliceBucket_word (forEachSet s.nonEmptyBuckets (s.getIndex now + 1))
    (fun i mem => lt_of_testBit inv.word ((mem_forEachSet inv.word).1 mem).2)
    inv.word
  obtain ⟨-, -, buckets, bits, expired⟩ :=
    foldl_spliceBucket (forEachSet s.nonEmptyBuckets (s.getIndex now + 1)) s
  generalize (forEachSet s.nonEmptyBuckets (s.getIndex now + 1)).foldl spliceBucket s = s₁
    at word buckets bits expired
  have buckets' : ∀ j, s₁.buckets j = if s.getIndex now < j then [] else s.buckets j := by
    intro j
    by_cases above : s.getIndex now < j
    · by_cases empty : s.buckets j = [] <;> simp [buckets, touched, above, empty]
    · simp [buckets, touched, above]
  have old : ∀ i e, e ∈ s₁.buckets i → ¬s.getIndex now < i ∧ e ∈ s.buckets i := by
    intro i e mem
    rw [buckets'] at mem
    by_cases above : s.getIndex now < i
    · simp [above] at mem
    · exact ⟨above, by simpa [above] using mem⟩
  refine ⟨⟨rfl, word, ?_, ?_, ?_, ?_, ?_, ?_, ?_, .inl rfl⟩, buckets', fun e => ?_⟩
  · intro i ne
    by_cases above : s.getIndex now < i
    · by_cases empty : s.buckets i = []
      · have off : s.nonEmptyBuckets.testBit i = false := by
          simpa using mt (inv.bits i).1 (not_not.2 empty)
        simp [bits, touched, above, empty, buckets', off]
      · simp [bits, touched, above, empty, buckets']
    · simp [bits, touched, above, buckets', inv.bits i]
  · intro i ne e mem
    obtain ⟨above, mem⟩ := old i e mem
    have home := inv.home i e mem
    have bound := inv.bound i e mem
    have lt : indexOf s.last e.timeout < indexOf s.last now := by
      rw [home, ← getIndex_eq]
      omega
    exact ⟨(indexOf_far inv.low later high bound lt).trans home,
      lt_of_indexOf_lt inv.low bound high lt⟩
  · exact fun i e mem => inv.bound i e (old i e mem).2
  · intro e mem ahead
    obtain ⟨-, mem⟩ := old _ e mem
    exact indexOf_same inv.low later high (inv.bound _ e mem) (inv.home _ e mem) ahead
  · intro i
    simp only [buckets']
    split
    · exact nodup_nil
    · exact inv.nodup i
  · intro e mem i ne other
    have first := inv.home _ e (old _ e mem).2
    have second := inv.home i e (old i e other).2
    exact ne (second.symm.trans first)
  · intro i lt e mem
    exact absurd lt (old i e mem).1
  · rw [expired]
    refine or_congr_right ⟨?_, ?_⟩
    · rintro ⟨i, mem, there⟩
      exact ⟨i, ((touched i).1 mem).1, there⟩
    · rintro ⟨i, above, there⟩
      exact ⟨i, (touched i).2 ⟨above, ne_nil_of_mem there⟩, there⟩

/-- What the last part of `expire` does to the next timeout. -/
theorem Draining.nextExact {now : ℤ} {index : ℕ} (inv : Draining now index s) (low : 0 ≤ now)
    (empty : s.buckets index = []) (bits : ∀ i, s.nonEmptyBuckets.testBit i = true ↔ s.buckets i ≠ [])
    {s' : TimerSet τ} (result : s' = if s.next = maxTimestamp ∧ s.nonEmptyBuckets ≠ 0 then
      { s with next := nextFrom s.next (s.buckets s.getLastNonEmptyBucket) } else s) :
    s'.buckets = s.buckets ∧ s'.expired = s.expired ∧ s'.last = s.last ∧
      s'.nonEmptyBuckets = s.nonEmptyBuckets ∧ s'.NextExact := by
  -- An active timer in a higher bucket comes first.
  have order : ∀ i j e f, e ∈ s.buckets i → f ∈ s.buckets j → i < j → f.timeout < e.timeout := by
    intro i j e f memE memF lt
    have neI : i ≠ index := by rintro rfl; simp [empty] at memE
    have neJ : j ≠ index := by rintro rfl; simp [empty] at memF
    refine lt_of_indexOf_lt low (inv.bound i e memE) (inv.bound j f memF) ?_
    rwa [(inv.home i neI e memE).1, (inv.home j neJ f memF).1]
  by_cases search : s.next = maxTimestamp ∧ s.nonEmptyBuckets ≠ 0
  · rw [if_pos search] at result
    subst result
    refine ⟨rfl, rfl, rfl, rfl, ?_⟩
    obtain ⟨top, some⟩ := search
    obtain ⟨on, above⟩ := getLastSet_spec inv.word some
    obtain ⟨-, least⟩ := nextFrom_le s.next (s.buckets s.getLastNonEmptyBucket)
    obtain ⟨f, memF⟩ := exists_mem_of_ne_nil _ ((bits _).1 on)
    refine ⟨?_, .inr ?_⟩
    · rintro e ⟨i, mem⟩
      rcases lt_trichotomy i s.getLastNonEmptyBucket with lt | rfl | gt
      · exact (least f memF).trans (order _ _ e f mem memF lt).le
      · exact least e mem
      · have := (bits i).2 (ne_nil_of_mem mem)
        rw [above i gt] at this
        cases this
    · rcases nextFrom_mem s.next (s.buckets s.getLastNonEmptyBucket) with same | ⟨e, mem, same⟩
      · refine ⟨f, ⟨_, memF⟩, le_antisymm (least f memF) ?_⟩
        rw [same, top]
        exact inv.bound _ f memF
      · exact ⟨e, ⟨_, mem⟩, same⟩
  · rw [if_neg search] at result
    subst result
    refine ⟨rfl, rfl, rfl, rfl, ?_⟩
    rcases inv.nextAt with top | ⟨i, lt, e, mem, same⟩
    · have none : ∀ e, ¬s'.Active e := by
        rintro e ⟨i, mem⟩
        refine search ⟨top, fun zero => ?_⟩
        have := (bits i).2 (ne_nil_of_mem mem)
        rw [zero, Nat.zero_testBit] at this
        cases this
      exact ⟨fun e active => absurd active (none e), .inl ⟨top, none⟩⟩
    · refine ⟨?_, .inr ⟨e, ⟨i, mem⟩, same⟩⟩
      rintro f ⟨j, memF⟩
      rcases lt_trichotomy j index with below | rfl | above
      · rw [same]
        exact (order j i f e memF mem (below.trans lt)).le
      · simp [empty] at memF
      · exact inv.nextLe j above f memF

/-- **`expire`** moves exactly the passed timers and finds the next timeout. -/
theorem Inv.expire (inv : s.Inv) {now : ℤ} (later : s.last ≤ now) (high : now ≤ maxTimestamp) :
    ∃ s', s.expire now = some s' ∧ s'.Inv ∧ s'.last = now ∧ s'.NextExact ∧
      (∀ e, e ∈ s'.expired ↔ e ∈ s.expired ∨ s.Active e ∧ e.timeout ≤ now) ∧
      ∀ e, s'.Active e ↔ s.Active e ∧ now < e.timeout := by
  have low := inv.low.trans later
  obtain ⟨start, buckets₁, expired₁⟩ := inv.draining later high
  unfold TimerSet.expire
  rw [if_neg (Int.not_lt.2 later)]
  simp only
  generalize (forEachSet s.nonEmptyBuckets (s.getIndex now + 1)).foldl spliceBucket s = s₁
    at start buckets₁ expired₁
  obtain ⟨s₂, result, inv₂, empty, expired₂, active₂⟩ := start.drainBucket (Nat.lt_succ_self _)
  rw [result]
  simp only [empty, isEmpty_nil, Bool.not_true]
  have bits : ∀ i, (set s₂.nonEmptyBuckets (s.getIndex now) false).testBit i = true ↔
      s₂.buckets i ≠ [] := by
    intro i
    rw [set_testBit]
    by_cases here : i = s.getIndex now
    · simp [here, empty]
    · rw [if_neg here, inv₂.bits i here]
  have word : set s₂.nonEmptyBuckets (s.getIndex now) false < 2 ^ 64 :=
    set_lt inv₂.word (Nat.lt_succ_of_le (indexOf_le _ _)) _
  have inv₃ : Draining now (s.getIndex now)
      { s₂ with nonEmptyBuckets := set s₂.nonEmptyBuckets (s.getIndex now) false } :=
    ⟨inv₂.last, word, fun i _ => bits i, inv₂.home, inv₂.bound, inv₂.closer, inv₂.nodup, inv₂.apart,
      inv₂.nextLe, inv₂.nextAt⟩
  obtain ⟨s', shape⟩ : ∃ s' : TimerSet τ, s' = if s₂.next = maxTimestamp ∧
      set s₂.nonEmptyBuckets (s.getIndex now) false ≠ 0 then
        { s₂ with
          next := nextFrom s₂.next (s₂.buckets (getLastNonEmptyBucket
            { s₂ with nonEmptyBuckets := set s₂.nonEmptyBuckets (s.getIndex now) false }))
          nonEmptyBuckets := set s₂.nonEmptyBuckets (s.getIndex now) false }
      else { s₂ with nonEmptyBuckets := set s₂.nonEmptyBuckets (s.getIndex now) false } :=
    ⟨_, rfl⟩
  obtain ⟨buckets', expired', last', word', exact⟩ := inv₃.nextExact low empty bits shape
  refine ⟨s', ?_, ?_, last'.trans inv₂.last, exact, fun e => ?_, fun e => ?_⟩
  · rw [shape]
    split <;> rfl
  · refine ⟨?_, ?_, word' ▸ word, ?_, ?_, ?_, ?_, ?_⟩
    · rw [last', inv₂.last]
      exact low
    · rw [last', inv₂.last]
      exact high
    · intro i
      rw [word', buckets', bits]
    · intro i e mem
      rw [buckets'] at mem
      rw [last', inv₂.last]
      by_cases here : i = s.getIndex now
      · rw [here, empty] at mem
        cases mem
      · exact (inv₂.home i here e mem).1
    · exact fun i e mem => inv₂.bound i e (buckets' ▸ mem)
    · exact fun i => buckets' ▸ inv₂.nodup i
    · exact fun i e mem => exact.1 e ⟨i, mem⟩
  · rw [expired', expired₂]
    simp only [expired₁, buckets₁, lt_irrefl, if_false]
    constructor
    · rintro ((old | ⟨i, above, mem⟩) | ⟨mem, le⟩)
      · exact .inl old
      · refine .inr ⟨⟨i, mem⟩, (lt_of_indexOf_lt inv.low high (inv.bound i e mem) ?_).le⟩
        rw [inv.home i e mem]
        exact above
      · exact .inr ⟨⟨_, mem⟩, le⟩
    · rintro (old | ⟨⟨i, mem⟩, le⟩)
      · exact .inl (.inl old)
      · rcases lt_trichotomy i (s.getIndex now) with below | rfl | above
        · have := lt_of_indexOf_lt inv.low (inv.bound i e mem) high
            (by rw [inv.home i e mem]; exact below)
          omega
        · exact .inr ⟨mem, le⟩
        · exact .inl (.inr ⟨i, above, mem⟩)
  · have same : s'.Active e ↔ s₂.Active e := by rw [Active, Active, buckets']
    rw [same, active₂]
    simp only [buckets₁, lt_irrefl, if_false]
    constructor
    · rintro (⟨i, ne, mem⟩ | ⟨mem, lt⟩)
      · by_cases above : s.getIndex now < i
        · simp [above] at mem
        · rw [if_neg above] at mem
          refine ⟨⟨i, mem⟩, lt_of_indexOf_lt inv.low (inv.bound i e mem) high ?_⟩
          rw [inv.home i e mem, ← getIndex_eq]
          omega
      · exact ⟨⟨_, mem⟩, lt⟩
    · rintro ⟨⟨i, mem⟩, lt⟩
      rcases lt_trichotomy i (s.getIndex now) with below | rfl | above
      · exact .inl ⟨i, below.ne, by rwa [if_neg below.not_gt]⟩
      · exact .inr ⟨mem, lt⟩
      · have := lt_of_indexOf_lt inv.low high (inv.bound i e mem)
          (by rw [inv.home i e mem]; exact above)
        omega

/-! ## Runs -/

section Runs

variable [DecidableEq τ]

/-- The operations with their documented preconditions. -/
inductive Step : TimerSet τ → TimerSet τ → Prop
  | insert {s : TimerSet τ} (e : Entry τ) (high : e.timeout ≤ maxTimestamp)
      (fresh : ∀ f, s.Active f ∨ f ∈ s.expired → f.timer ≠ e.timer) : Step s (s.insert e).1
  | remove {s s' : TimerSet τ} (e : Entry τ) (active : s.Active e)
      (result : s.remove e = some s') : Step s s'
  | expire {s s' : TimerSet τ} (now : ℤ) (high : now ≤ maxTimestamp)
      (result : s.expire now = some s') : Step s s'
  | popExpired {s : TimerSet τ} : Step s s.popExpired.1

def Reached : TimerSet τ → Prop := Reachable (· = empty) Step

theorem Inv.step {s' : TimerSet τ} (inv : s.Inv) (step : Step s s') : s'.Inv := by
  cases step with
  | insert e high fresh => exact inv.insert high fun active => fresh e (.inl active) rfl
  | remove e active result =>
    obtain ⟨t, result', inv', -⟩ := inv.remove active
    rw [result] at result'
    exact Option.some.inj result' ▸ inv'
  | expire now high result =>
    have later : s.last ≤ now := by
      by_contra early
      rw [TimerSet.expire, if_pos (Int.not_le.1 early)] at result
      cases result
    obtain ⟨t, result', inv', -⟩ := inv.expire later high
    rw [result] at result'
    exact Option.some.inj result' ▸ inv'
  | popExpired => exact inv.popExpired

theorem Reached.inv (reached : Reached s) : s.Inv := by
  apply Reachable.invariant (I := Inv) ?_ ?_ reached
  · rintro s rfl
    exact Inv.empty
  · exact fun s s' _ inv step => inv.step step

/-- **The timer set** over every run that keeps to the documented preconditions: an active
timer is in its bucket and in no other, and once; `insert` and `remove` add and take away
exactly their timer; `expire` moves exactly the passed timers and leaves the smallest
timeout; and the next timeout is never later than an active timer that is due. -/
theorem reached_timerSet (reached : Reached s) :
    (∀ e, s.Active e ↔ e ∈ s.buckets (s.getIndex e.timeout)) ∧
      (∀ i, ∀ e ∈ s.buckets i, s.getIndex e.timeout = i ∧ (s.buckets i).count e = 1) ∧
      (∀ e, ∀ f, (s.insert e).1.Active f ↔ f = e ∨ s.Active f) ∧
      (∀ e, s.Active e → ∃ s', s.remove e = some s' ∧ ∀ f, s'.Active f ↔ s.Active f ∧ f ≠ e) ∧
      (∀ now, s.last ≤ now → now ≤ maxTimestamp → ∃ s', s.expire now = some s' ∧
        (∀ e, e ∈ s'.expired ↔ e ∈ s.expired ∨ s.Active e ∧ e.timeout ≤ now) ∧
        (∀ e, s'.Active e ↔ s.Active e ∧ now < e.timeout) ∧
        ((∀ e, ¬s'.Active e) ∧ s'.getNextTimeout = maxTimestamp ∨
          (∃ e, s'.Active e ∧ s'.getNextTimeout = e.timeout) ∧
            ∀ e, s'.Active e → s'.getNextTimeout ≤ e.timeout)) ∧
      ∀ e, s.Active e → s.getNextTimeout ≤ max s.last e.timeout := by
  have inv := reached.inv
  refine ⟨inv.active_iff, ?_, active_insert s, ?_, ?_, ?_⟩
  · intro i e mem
    exact ⟨inv.home i e mem, count_eq_one_of_mem (inv.nodup i) mem⟩
  · intro e active
    obtain ⟨s', result, -, -, -, rest⟩ := inv.remove active
    exact ⟨s', result, rest⟩
  · intro now later high
    obtain ⟨s', result, -, last, ⟨least, next⟩, expired, active⟩ := inv.expire later high
    refine ⟨s', result, expired, active, ?_⟩
    rcases next with ⟨top, none⟩ | ⟨e, here, same⟩
    · exact .inl ⟨none, by rw [getNextTimeout, top, last]; exact max_eq_right high⟩
    · have ahead := ((active e).1 here).2
      have found : s'.getNextTimeout = s'.next := by
        rw [getNextTimeout, last, same]
        exact max_eq_right ahead.le
      exact .inr ⟨⟨e, here, found.trans same⟩, fun f there => found.le.trans (least f there)⟩
  · rintro e ⟨i, mem⟩
    exact max_le_max le_rfl (inv.nextLe i e mem)

def twoTimers : TimerSet ℕ := (((empty.insert ⟨0, 5⟩).1.insert ⟨1, 9⟩).1)

theorem twoTimers_reached : Reached twoTimers := by
  refine .next (.next (.start rfl) (.insert ⟨0, 5⟩ (by decide) ?_)) (.insert ⟨1, 9⟩ (by decide) ?_)
  · rintro f (⟨i, mem⟩ | mem) <;> cases mem
  · rintro f (active | mem)
    · rw [active_insert] at active
      rcases active with rfl | ⟨i, mem⟩
      · decide
      · cases mem
    · cases mem

/-- Expiring at 6 moves the first timer only, and the next timeout is that of the second. -/
theorem twoTimers_timerSet : Reached twoTimers ∧
    ((twoTimers.expire 6).map fun s => (s.expired, s.getNextTimeout)) = some ([⟨0, 5⟩], 9) ∧
      ∀ e, twoTimers.Active e → twoTimers.getNextTimeout ≤ max twoTimers.last e.timeout :=
  ⟨twoTimers_reached, by decide +kernel, (reached_timerSet twoTimers_reached).2.2.2.2.2⟩

/-! ## The answer of `insert`

`insert` compares the timeout with `_next`, while `get_next_timeout` answers the later of
`_last` and `_next`. The two differ once a timer that is already in the past was inserted,
so the run is followed together with the timeouts inserted since the last `expire`. -/

/-- A run with the timeouts that were inserted since the last `expire`. -/
inductive LoggedStep : TimerSet τ × List ℤ → TimerSet τ × List ℤ → Prop
  | insert {s : TimerSet τ} {since : List ℤ} (e : Entry τ) (high : e.timeout ≤ maxTimestamp)
      (fresh : ∀ f, s.Active f ∨ f ∈ s.expired → f.timer ≠ e.timer) :
      LoggedStep (s, since) ((s.insert e).1, e.timeout :: since)
  | remove {s s' : TimerSet τ} {since : List ℤ} (e : Entry τ) (active : s.Active e)
      (result : s.remove e = some s') : LoggedStep (s, since) (s', since)
  | expire {s s' : TimerSet τ} {since : List ℤ} (now : ℤ) (high : now ≤ maxTimestamp)
      (result : s.expire now = some s') : LoggedStep (s, since) (s', [])
  | popExpired {s : TimerSet τ} {since : List ℤ} :
      LoggedStep (s, since) (s.popExpired.1, since)

def Logged : TimerSet τ × List ℤ → Prop := Reachable (· = (empty, [])) LoggedStep

theorem LoggedStep.step {a b : TimerSet τ × List ℤ} (step : LoggedStep a b) : Step a.1 b.1 := by
  cases step with
  | insert e high fresh => exact .insert e high fresh
  | remove e active result => exact .remove e active result
  | expire now high result => exact .expire now high result
  | popExpired => exact .popExpired

/-- The log is only kept beside the run: every reached state has one. -/
theorem reached_iff_logged : Reached s ↔ ∃ since, Logged (s, since) := by
  constructor
  · intro reached
    refine Reachable.invariant (I := fun s => ∃ since, Logged (s, since)) ?_ ?_ reached
    · rintro s rfl
      exact ⟨[], .start rfl⟩
    · rintro s s' - ⟨since, logged⟩ step
      cases step with
      | insert e high fresh => exact ⟨_, logged.next (.insert e high fresh)⟩
      | remove e active result => exact ⟨_, logged.next (.remove e active result)⟩
      | expire now high result => exact ⟨_, logged.next (.expire now high result)⟩
      | popExpired => exact ⟨_, logged.next .popExpired⟩
  · rintro ⟨since, logged⟩
    refine Reachable.invariant (I := fun a => Reached a.1) ?_ ?_ logged
    · rintro _ rfl
      exact .start rfl
    · exact fun a b _ reached step => reached.next step.step

theorem remove_next {s' : TimerSet τ} {e : Entry τ} (result : s.remove e = some s') :
    s'.next = s.next ∧ s'.last = s.last := by
  unfold remove at result
  dsimp only at result
  split at result
  · cases result
    split <;> exact ⟨rfl, rfl⟩
  · cases result

omit [DecidableEq τ] in
/-- After `expire(now)` no timeout before `now` counts as the next one. -/
theorem Inv.expire_next {s' : TimerSet τ} {now : ℤ} (inv : s.Inv) (high : now ≤ maxTimestamp)
    (result : s.expire now = some s') : s'.last = now ∧ now ≤ s'.next := by
  have later : s.last ≤ now := by
    by_contra early
    rw [TimerSet.expire, if_pos (Int.not_le.1 early)] at result
    cases result
  obtain ⟨t, result', -, last, ⟨-, next⟩, -, active⟩ := inv.expire later high
  obtain rfl : s' = t := Option.some.inj (result.symm.trans result')
  refine ⟨last, ?_⟩
  rcases next with ⟨top, -⟩ | ⟨e, here, same⟩
  · exact top ▸ high
  · exact same ▸ ((active e).1 here).2.le

/-- Below `_last` the value `_next` is the least of the timeouts in the log. -/
def LogsPast (a : TimerSet τ × List ℤ) : Prop :=
  ∀ t, t < a.1.last → (a.1.next ≤ t ↔ ∃ u ∈ a.2, u ≤ t)

theorem LogsPast.step {a b : TimerSet τ × List ℤ} (inv : a.1.Inv) (past : LogsPast a)
    (step : LoggedStep a b) : LogsPast b := by
  cases step with
  | @insert s since e high fresh =>
    obtain ⟨last, -, next, -⟩ := insert_rest s e
    intro t before
    rw [last] at before
    rw [next, min_le_iff, past t before]
    simp [or_comm]
  | remove e active result =>
    obtain ⟨next, last⟩ := remove_next result
    intro t before
    rw [next, past t (last ▸ before)]
  | expire now high result =>
    obtain ⟨last, next⟩ := inv.expire_next high result
    intro t before
    rw [last] at before
    have above : ¬ _ ≤ t := Int.not_le.2 (before.trans_le next)
    simpa using above
  | @popExpired s since =>
    obtain ⟨-, last, next, -⟩ := popExpired_buckets s
    intro t before
    rw [next, past t (last ▸ before)]

theorem Logged.past {a : TimerSet τ × List ℤ} (logged : Logged a) : a.1.Inv ∧ LogsPast a := by
  apply Reachable.invariant (I := fun a => a.1.Inv ∧ LogsPast a) ?_ ?_ logged
  · rintro _ rfl
    refine ⟨Inv.empty, fun t before => ?_⟩
    have negative : t < 0 := before
    have top : ¬(empty : TimerSet τ).next ≤ t := by
      simp only [empty, maxTimestamp]
      omega
    exact iff_of_false top (by simp)
  · rintro a b - ⟨inv, past⟩ step
    exact ⟨inv.step step.step, past.step inv step⟩

/-- **What `insert` answers** in every reached state: the documented comparison with the next
timeout, except exactly for a timeout in the past that does not precede every timeout
inserted since the last `expire`. -/
theorem insert_answer_iff {since : List ℤ} (logged : Logged (s, since)) (e : Entry τ) :
    ((s.insert e).2 = true ↔ e.timeout < s.getNextTimeout) ↔
      ¬(e.timeout < s.last ∧ ∃ u ∈ since, u ≤ e.timeout) := by
  obtain ⟨-, past⟩ := logged.past
  have answer : (s.insert e).2 = true ↔ e.timeout < s.next := by
    unfold insert
    simp only
    split
    next lt => simpa using lt
    next le => simpa using Int.not_lt.1 le
  rw [answer, getNextTimeout, lt_max_iff]
  by_cases before : e.timeout < s.last
  · have known := past e.timeout before
    simp only [before, true_or, iff_true, true_and, ← known]
    exact Int.not_le.symm
  · simp [before]

def expiredAt : TimerSet ℕ := ((empty : TimerSet ℕ).expire 10).getD empty

theorem expiredAt_result : (empty : TimerSet ℕ).expire 10 = some expiredAt := rfl

theorem expiredAt_vacant (f : Entry ℕ) : ¬(expiredAt.Active f ∨ f ∈ expiredAt.expired) := by
  obtain ⟨t, result, -, -, -, expired, active⟩ :=
    Inv.expire (s := (empty : TimerSet ℕ)) Inv.empty (show (0 : ℤ) ≤ 10 by decide)
      (show (10 : ℤ) ≤ maxTimestamp by decide)
  obtain rfl : expiredAt = t := Option.some.inj (expiredAt_result.symm.trans result)
  have none : ¬(empty : TimerSet ℕ).Active f := by
    rintro ⟨i, mem⟩
    cases mem
  rintro (here | mem)
  · exact none ((active f).1 here).1
  · rcases (expired f).1 mem with old | moved
    · cases old
    · exact none moved.1

/-- A timer for 3, which is in the past, inserted after `expire(10)`. -/
def pastTimer : TimerSet ℕ := (expiredAt.insert ⟨0, 3⟩).1

theorem pastTimer_logged : Logged (pastTimer, [3]) := by
  have begun : Logged ((empty : TimerSet ℕ), []) := .start rfl
  have expired : Logged (expiredAt, []) := begun.next (.expire 10 (by decide) expiredAt_result)
  exact expired.next (.insert ⟨0, 3⟩ (by decide) fun f old => absurd old (expiredAt_vacant f))

/-- For a timeout before the one in the log the answer is the documented one. -/
theorem pastTimer_answer : Logged (pastTimer, [3]) ∧
    ((pastTimer.insert ⟨1, 2⟩).2 = true ↔ (2 : ℤ) < pastTimer.getNextTimeout) :=
  ⟨pastTimer_logged, (insert_answer_iff pastTimer_logged ⟨1, 2⟩).2 (by decide)⟩

/-- The timer for 5 is answered `false`, with 10 as the next timeout before the call. -/
theorem pastTimer_answer_wrong : Logged (pastTimer, [3]) ∧
    (pastTimer.insert ⟨1, 5⟩).2 = false ∧ (5 : ℤ) < pastTimer.getNextTimeout :=
  ⟨pastTimer_logged, by decide +kernel, by decide +kernel⟩

end Runs

end TimerSet

end MiniOsv.Timer
