import Antb1.Lib.Grouping
import Mathlib.Algebra.BigOperators.Group.List.Basic
import Mathlib.Algebra.Order.Ring.Nat

/-! Counting sorts on machine words: counts, prefix sums in one pass or in blocks, and
stable placing. `word` is the number of values of a word; 0 computes exactly, so that
a run equal to the exact one has no overflow. -/
namespace CountingSort

open List Nat

variable {α : Type}

/-- Each item counted at its bucket plus `offset`. -/
def countUp (word offset : Nat) (bucket : α → Nat) (items : List α) (counts : List Nat) :
    List Nat :=
  items.foldl (fun counts item => counts.modify (bucket item + offset) fun n => (n + 1) % word)
    counts

/-- The sums of a list and everything before it, from `sum` on. -/
def partialSums (word : Nat) : Nat → List Nat → List Nat
  | _, [] => []
  | sum, n :: rest => (sum + n) % word :: partialSums word ((sum + n) % word) rest

/-- The entries of one of `blocks` blocks. -/
def blockOf (blocks : Nat) (counts : List Nat) (block : Nat) : List Nat :=
  let size := (counts.length + blocks - 1) / blocks
  let first := min (block * size) counts.length
  let last := min (first + size) counts.length
  (counts.drop first).take (last - first)

def totalOf (word : Nat) (counts : List Nat) : Nat := counts.foldl (fun sum n => (sum + n) % word) 0

def addBases (word : Nat) : Nat → List (List Nat) → List Nat
  | _, [] => []
  | base, block :: rest =>
    (if base = 0 then partialSums word 0 block
      else (partialSums word 0 block).map fun n => (n + base) % word) ++
        addBases word ((base + totalOf word block) % word) rest

def blockedSums (word blocks : Nat) (counts : List Nat) : List Nat :=
  addBases word 0 ((List.range blocks).map (blockOf blocks counts))

/-- The slots to fill next, one per bucket, and the places filled so far. -/
structure Placing (α : Type) where
  next : List Nat
  out : List α

def placeOne (word shift : Nat) (bucket : α → Nat) (placing : Placing α) (item : α) : Placing α :=
  let slot := placing.next.getD (bucket item + shift) 0
  ⟨placing.next.modify (bucket item + shift) fun n => (n + 1) % word, placing.out.set slot item⟩

def place (word shift : Nat) (bucket : α → Nat) (items : List α) (placing : Placing α) :
    Placing α :=
  items.foldl (placeOne word shift bucket) placing

def sorted (buckets : Nat) (bucket : α → Nat) (items : List α) : List α :=
  (List.range buckets).flatMap fun b => items.filter fun item => bucket item = b

def Fits (word n : Nat) : Prop := word = 0 ∨ n < word

theorem Fits.mod_eq {word n : Nat} (fits : Fits word n) : n % word = n := by
  rcases fits with rfl | below
  · exact mod_zero n
  · exact mod_eq_of_lt below

theorem Fits.mono {word m n : Nat} (fits : Fits word n) (le : m ≤ n) : Fits word m :=
  fits.imp_right fun below => le.trans_lt below

section Before

variable (bucket : α → Nat) (items : List α) {buckets : Nat}

/-- The items in buckets below `b`. -/
def before (b : Nat) : Nat := items.countP fun item => bucket item < b

def size (b : Nat) : Nat := items.countP fun item => bucket item = b

@[simp] theorem before_zero : before bucket items 0 = 0 := by simp [before]

theorem before_succ (b : Nat) :
    before bucket items (b + 1) = before bucket items b + size bucket items b := by
  unfold before size
  induction items with
  | nil => rfl
  | cons item rest ih =>
    simp only [countP_cons, ih]
    rcases lt_trichotomy (bucket item) b with below | same | above
    · simp [below, Nat.lt_succ_of_lt below, Nat.ne_of_lt below]
      omega
    · simp [same]
      omega
    · have later : ¬ bucket item < b + 1 := by omega
      simp [later, Nat.not_lt_of_lt above, Nat.ne_of_gt above]

theorem before_mono {a b : Nat} (le : a ≤ b) : before bucket items a ≤ before bucket items b := by
  apply countP_mono_left
  intro item _ below
  simp only [decide_eq_true_eq] at below ⊢
  omega

theorem before_le (b : Nat) : before bucket items b ≤ items.length := countP_le_length

theorem before_all (bounded : ∀ item ∈ items, bucket item < buckets) :
    before bucket items buckets = items.length := by
  rw [before, countP_eq_length]
  simpa using bounded

theorem size_eq_filter (b : Nat) :
    size bucket items b = (items.filter fun item => bucket item = b).length :=
  countP_eq_length_filter

theorem exists_bucket {place buckets : Nat} (below : place < before bucket items buckets) :
    ∃ b < buckets, ∃ k < size bucket items b, place = before bucket items b + k := by
  induction buckets with
  | zero => simp at below
  | succ buckets ih =>
    by_cases earlier : place < before bucket items buckets
    · obtain ⟨b, bound, k, small, same⟩ := ih earlier
      exact ⟨b, by omega, k, small, same⟩
    · rw [before_succ] at below
      exact ⟨buckets, by omega, place - before bucket items buckets, by omega, by omega⟩

theorem sorted_perm (bounded : ∀ item ∈ items, bucket item < buckets) :
    (sorted buckets bucket items).Perm items :=
  Grouping.flatMap_members_perm nodup_range fun item member =>
    mem_range.mpr (bounded item member)

theorem length_sorted (buckets : Nat) :
    (sorted buckets bucket items).length = before bucket items buckets := by
  induction buckets with
  | zero => simp [sorted]
  | succ buckets ih =>
    unfold sorted at ih ⊢
    rw [range_succ, flatMap_append, length_append, ih, before_succ, size_eq_filter]
    simp

theorem sorted_split {b buckets : Nat} (bound : b < buckets) :
    ∃ rest, sorted buckets bucket items =
      sorted b bucket items ++ (items.filter fun item => bucket item = b) ++ rest := by
  obtain ⟨n, rfl⟩ := Nat.exists_eq_add_of_le (show b + 1 ≤ buckets from bound)
  refine ⟨((List.range n).map (b + 1 + ·)).flatMap fun b => items.filter fun item =>
    bucket item = b, ?_⟩
  rw [sorted, range_add, flatMap_append, range_succ, flatMap_append,
    flatMap_singleton, sorted]

theorem sorted_congr {other : α → Nat} (same : ∀ item ∈ items, bucket item = other item)
    (buckets : Nat) : sorted buckets bucket items = sorted buckets other items := by
  unfold sorted
  congr 1
  funext b
  apply filter_congr
  intro item member
  rw [same item member]

theorem before_congr {other : α → Nat} (same : ∀ item ∈ items, bucket item = other item)
    (b : Nat) : before bucket items b = before other items b := by
  apply countP_congr
  intro item member
  rw [same item member]

theorem sorted_getElem? {buckets b k : Nat} (bound : b < buckets)
    (small : k < size bucket items b) :
    (sorted buckets bucket items)[before bucket items b + k]? =
      (items.filter fun item => bucket item = b)[k]? := by
  induction buckets with
  | zero => omega
  | succ buckets ih =>
    have split : sorted (buckets + 1) bucket items =
        sorted buckets bucket items ++ items.filter fun item => bucket item = buckets := by
      simp [sorted, range_succ]
    rw [split]
    by_cases last : b = buckets
    · subst last
      rw [getElem?_append_right (by simp [length_sorted]), length_sorted,
        Nat.add_sub_cancel_left]
    · have earlier : b < buckets := by omega
      have inside : before bucket items b + k < (sorted buckets bucket items).length := by
        have := before_mono bucket items (show b + 1 ≤ buckets by omega)
        rw [before_succ] at this
        rw [length_sorted]
        omega
      rw [getElem?_append_left inside, ih earlier]

end Before

section Counts

variable {word : Nat} {bucket : α → Nat} {items : List α} {counts : List Nat} {sum base : Nat}

theorem countUp_getElem? {offset : Nat}
    (fits : ∀ i n : Nat, counts[i]? = some n →
      Fits word (n + size (fun item => bucket item + offset) items i)) (i : Nat) :
    (countUp word offset bucket items counts)[i]? =
      counts[i]?.map (· + size (fun item => bucket item + offset) items i) := by
  induction items generalizing counts with
  | nil => simp [countUp, size]
  | cons item rest ih =>
    have sizes : ∀ j, size (fun item => bucket item + offset) (item :: rest) j =
        size (fun item => bucket item + offset) rest j +
          if bucket item + offset = j then 1 else 0 := by
      intro j
      simp [size, countP_cons]
    have bumped : ∀ j, (counts.modify (bucket item + offset) fun n => (n + 1) % word)[j]? =
        counts[j]?.map (· + if bucket item + offset = j then 1 else 0) := by
      intro j
      rw [getElem?_modify]
      cases found : counts[j]? with
      | none => rfl
      | some n =>
        have fits_here := fits j n found
        rw [sizes] at fits_here
        by_cases same : bucket item + offset = j
        · rw [if_pos same] at fits_here
          simp [same, (fits_here.mono (show n + 1 ≤ _ by omega)).mod_eq]
        · simp [same]
    have later : ∀ j n : Nat,
        (counts.modify (bucket item + offset) fun n => (n + 1) % word)[j]? = some n →
          Fits word (n + size (fun item => bucket item + offset) rest j) := by
      intro j n found
      rw [bumped, Option.map_eq_some_iff] at found
      obtain ⟨m, old, rfl⟩ := found
      have fits_here := fits j m old
      rw [sizes] at fits_here
      exact fits_here.mono (by omega)
    rw [countUp, foldl_cons, ← countUp, ih later, bumped, Option.map_map, sizes]
    cases counts[i]? with
    | none => rfl
    | some n =>
      simp only [Option.map_some, Function.comp_apply]
      congr 1
      omega

theorem length_partialSums (word sum : Nat) (counts : List Nat) :
    (partialSums word sum counts).length = counts.length := by
  induction counts generalizing sum with
  | nil => rfl
  | cons n rest ih => simp [partialSums, ih]

theorem partialSums_getElem? (fits : Fits word (sum + counts.sum)) {i : Nat}
    (bound : i < counts.length) :
    (partialSums word sum counts)[i]? = some (sum + (counts.take (i + 1)).sum) := by
  induction counts generalizing sum i with
  | nil => simp at bound
  | cons n rest ih =>
    rw [sum_cons] at fits
    have here : (sum + n) % word = sum + n := (fits.mono (by omega)).mod_eq
    rw [partialSums, here]
    cases i with
    | zero => simp
    | succ i =>
      rw [getElem?_cons_succ, ih (by rwa [add_assoc]) (by simpa using bound)]
      simp [add_assoc]

theorem sum_size (bucket : α → Nat) (items : List α) (m : Nat) :
    ((List.range m).map (size bucket items)).sum = before bucket items m := by
  induction m with
  | zero => simp
  | succ m ih => rw [range_succ, map_append, List.sum_append, ih, before_succ]; simp

theorem countUp_zero {offset length : Nat} (fits : Fits word items.length) :
    countUp word offset bucket items (List.replicate length 0) =
      (List.range length).map (size (fun item => bucket item + offset) items) := by
  refine ext_getElem? fun i => ?_
  rw [countUp_getElem?]
  · by_cases bound : i < length
    · simp [bound]
    · simp [bound]
  · intro j n found
    rw [getElem?_replicate, Option.ite_none_right_eq_some, Option.some.injEq] at found
    rw [← found.2, zero_add]
    exact fits.mono countP_le_length

/-- Where the buckets start: after the counts at `shift + 1`, entry `b + shift` is the
number of items below bucket `b`. -/
theorem starts_eq {shift buckets : Nat} (fits : Fits word items.length) :
    partialSums word 0 (countUp word (shift + 1) bucket items
        (List.replicate (buckets + shift + 1) 0)) =
      (List.range (buckets + shift + 1)).map (before (fun item => bucket item + shift) items) := by
  have shifted : ∀ i, before (fun item => bucket item + (shift + 1)) items (i + 1) =
      before (fun item => bucket item + shift) items i := by
    intro i
    simp only [before, ← add_assoc, add_lt_add_iff_right]
  rw [countUp_zero fits]
  refine ext_getElem? fun i => ?_
  by_cases bound : i < buckets + shift + 1
  · have total : Fits word (0 + ((List.range (buckets + shift + 1)).map
        (size (fun item => bucket item + (shift + 1)) items)).sum) := by
      rw [sum_size, zero_add]
      exact fits.mono (before_le ..)
    rw [partialSums_getElem? total (by simpa using bound), ← map_take, take_range,
      Nat.min_eq_left bound, sum_size, shifted]
    simp [bound]
  · simp [length_partialSums, bound]

/-! Sums in blocks. -/

theorem totalOf_eq (fits : Fits word counts.sum) : totalOf word counts = counts.sum := by
  have loop : ∀ (counts : List Nat) (sum : Nat), Fits word (sum + counts.sum) →
      counts.foldl (fun sum n => (sum + n) % word) sum = sum + counts.sum := by
    intro counts
    induction counts with
    | nil => simp
    | cons n rest ih =>
      intro sum fits
      rw [sum_cons] at fits ⊢
      rw [foldl_cons, (fits.mono (show sum + n ≤ _ by omega)).mod_eq,
        ih _ (by rwa [add_assoc]), add_assoc]
  rw [totalOf, loop counts 0 (by rwa [zero_add]), zero_add]

theorem partialSums_append {first second : List Nat} (fits : Fits word (sum + first.sum)) :
    partialSums word sum (first ++ second) =
      partialSums word sum first ++ partialSums word (sum + first.sum) second := by
  induction first generalizing sum with
  | nil => simp [partialSums]
  | cons n rest ih =>
    rw [sum_cons] at fits
    have here := (fits.mono (show sum + n ≤ _ by omega)).mod_eq
    rw [cons_append, partialSums, partialSums, here, ih (by rwa [add_assoc]),
      sum_cons, add_assoc, cons_append]

theorem partialSums_base (fits : Fits word (sum + base + counts.sum)) :
    partialSums word (sum + base) counts =
      (partialSums word sum counts).map fun n => (n + base) % word := by
  induction counts generalizing sum with
  | nil => rfl
  | cons n rest ih =>
    rw [sum_cons] at fits
    have moved := (fits.mono (show sum + base + n ≤ _ by omega)).mod_eq
    have own := (fits.mono (show sum + n ≤ _ by omega)).mod_eq
    have same : sum + base + n = sum + n + base := by omega
    rw [partialSums, partialSums, map_cons, moved, own, same,
      ih (by rwa [← same, add_assoc])]
    rw [same] at moved
    rw [moved]

theorem addBases_eq {blocks : List (List Nat)} (fits : Fits word (base + blocks.flatten.sum)) :
    addBases word base blocks = partialSums word base blocks.flatten := by
  induction blocks generalizing base with
  | nil => rfl
  | cons block rest ih =>
    rw [flatten_cons, List.sum_append] at fits
    have own : totalOf word block = block.sum := totalOf_eq (fits.mono (by omega))
    have next := (fits.mono (show base + block.sum ≤ _ by omega)).mod_eq
    rw [addBases, own, next, ih (by rwa [add_assoc]), flatten_cons,
      partialSums_append (fits.mono (by omega))]
    congr 1
    split
    · rename_i zero
      rw [zero]
    · rw [← partialSums_base (fits.mono (by omega)), zero_add]

theorem flatten_blocks {blocks : Nat} (some : 0 < blocks) (counts : List Nat) :
    ((List.range blocks).map (blockOf blocks counts)).flatten = counts := by
  generalize width : (counts.length + blocks - 1) / blocks = size
  have upTo : ∀ k, ((List.range k).map (blockOf blocks counts)).flatten =
      counts.take (k * size) := by
    intro k
    induction k with
    | zero => simp
    | succ k ih =>
      rw [range_succ, map_append, flatten_append, ih, map_singleton,
        flatten_singleton, blockOf, width, succ_mul, take_add]
      congr 1
      by_cases inside : k * size ≤ counts.length
      · rw [Nat.min_eq_left inside]
        rcases le_total (k * size + size) counts.length with fit | beyond
        · rw [Nat.min_eq_left fit, Nat.add_sub_cancel_left]
        · rw [min_eq_right beyond, take_of_length_le (by simp),
            take_of_length_le (by simp; omega)]
      · rw [drop_eq_nil_of_le (by omega), drop_eq_nil_of_le (by omega)]
        simp
  have enough : counts.length ≤ blocks * size := by
    have below := lt_mul_div_succ (counts.length + blocks - 1) some
    rw [width, mul_add] at below
    omega
  rw [upTo, take_of_length_le enough]

theorem blockedSums_eq {blocks : Nat} (some : 0 < blocks) (fits : Fits word counts.sum) :
    blockedSums word blocks counts = partialSums word 0 counts := by
  rw [blockedSums, addBases_eq, flatten_blocks some]
  rwa [flatten_blocks some, zero_add]

theorem place_next (word shift : Nat) (bucket : α → Nat) (items : List α) (placing : Placing α) :
    (place word shift bucket items placing).next = countUp word shift bucket items placing.next := by
  induction items generalizing placing with
  | nil => rfl
  | cons item rest ih =>
    rw [place, foldl_cons, ← place, ih, countUp, countUp, foldl_cons]
    rfl

end Counts

section Place

variable {word shift buckets : Nat} {bucket : α → Nat} {items out done rest : List α}

/-- The places of the items done so far: each bucket's items stand from the bucket's
start on, in order. -/
structure Placed (bucket : α → Nat) (items done : List α) (out : List α) : Prop where
  length : out.length = items.length
  places : ∀ b k, k < size bucket done b →
    out[before bucket items b + k]? = (done.filter fun item => bucket item = b)[k]?

theorem size_append (bucket : α → Nat) (first second : List α) (b : Nat) :
    size bucket (first ++ second) b = size bucket first b + size bucket second b :=
  countP_append

theorem Placed.step {item : α} (split : items = done ++ item :: rest)
    (placed : Placed bucket items done out) :
    Placed bucket items (done ++ [item])
      (out.set (before bucket items (bucket item) + size bucket done (bucket item)) item) where
  length := by rw [length_set, placed.length]
  places b k small := by
    have sizes : ∀ b, size bucket done b + size bucket [item] b ≤ size bucket items b := by
      intro b
      rw [split, append_cons, size_append, size_append]
      omega
    have own : size bucket [item] (bucket item) = 1 := by simp [size]
    have slot : before bucket items (bucket item) + size bucket done (bucket item) <
        before bucket items (bucket item + 1) := by
      have := sizes (bucket item)
      rw [before_succ]
      omega
    have inside := slot.trans_le (before_le bucket items (bucket item + 1))
    rw [size_append] at small
    by_cases same : bucket item = b
    · subst same
      rw [own] at small
      rw [filter_append]
      by_cases last : k = size bucket done (bucket item)
      · subst last
        rw [getElem?_set_self (by rw [placed.length]; exact inside),
          getElem?_append_right (by rw [size_eq_filter]), size_eq_filter]
        simp
      · rw [getElem?_set_ne (by omega), placed.places _ k (by omega),
          getElem?_append_left (by rw [← size_eq_filter]; omega)]
    · have none_ : size bucket [item] b = 0 := by simp [size, same]
      rw [none_, add_zero] at small
      have inBucket : before bucket items b + k < before bucket items (b + 1) := by
        have := sizes b
        rw [before_succ]
        omega
      have apart : before bucket items (bucket item) + size bucket done (bucket item) ≠
          before bucket items b + k := by
        rcases lt_or_gt_of_ne same with below | above
        · have := before_mono bucket items (show bucket item + 1 ≤ b by omega)
          omega
        · have := before_mono bucket items (show b + 1 ≤ bucket item by omega)
          omega
      rw [getElem?_set_ne apart, placed.places b k small]
      simp [filter_append, same]

/-- The loop that places the items, from a state in which `done` are placed. -/
theorem place_loop (split : items = done ++ rest) (fits : Fits word items.length)
    (bounded : ∀ item ∈ items, bucket item < buckets) {placing : Placing α}
    (next : ∀ b < buckets, placing.next[b + shift]? =
      some (before bucket items b + size bucket done b))
    (placed : Placed bucket items done placing.out) :
    Placed bucket items items (place word shift bucket rest placing).out := by
  induction rest generalizing done placing with
  | nil =>
    rw [append_nil] at split
    exact split ▸ placed
  | cons item rest ih =>
    have here := next (bucket item) (bounded item (by simp [split]))
    have slot : placing.next.getD (bucket item + shift) 0 =
        before bucket items (bucket item) + size bucket done (bucket item) := by
      rw [getD_eq_getElem?_getD, here, Option.getD_some]
    have split' : items = done ++ [item] ++ rest := by rw [split, append_cons]
    rw [place, foldl_cons, ← place]
    refine ih split' ?_ ?_
    · intro b bound
      simp only [placeOne, getElem?_modify, next b bound, size_append]
      have room : before bucket items b + size bucket items b ≤ items.length := by
        rw [← before_succ]
        exact before_le ..
      have grows : size bucket done b + size bucket [item] b ≤ size bucket items b := by
        rw [split', size_append, size_append]
        omega
      by_cases same : bucket item = b
      · subst same
        have own : size bucket [item] (bucket item) = 1 := by simp [size]
        rw [own] at grows ⊢
        have word_fits : Fits word
            (before bucket items (bucket item) + (size bucket done (bucket item) + 1)) :=
          fits.mono (by omega)
        simp [add_assoc, word_fits.mod_eq]
      · simp [same, size]
    · rw [placeOne, slot]
      exact placed.step split

/-- Placing gives the items bucket by bucket, whatever the places held. -/
theorem place_out (fits : Fits word items.length)
    (bounded : ∀ item ∈ items, bucket item < buckets) {placing : Placing α}
    (next : ∀ b < buckets, placing.next[b + shift]? = some (before bucket items b))
    (length : placing.out.length = items.length) :
    (place word shift bucket items placing).out = sorted buckets bucket items := by
  have start : Placed bucket items [] placing.out :=
    ⟨length, fun b k small => by simp [size] at small⟩
  have placed := place_loop (nil_append items).symm fits bounded (by simpa [size] using next)
    start
  have total := before_all bucket items bounded
  refine ext_getElem? fun place => ?_
  by_cases bound : place < items.length
  · obtain ⟨b, below, k, small, rfl⟩ := exists_bucket bucket items (total ▸ bound)
    rw [placed.places b k small, sorted_getElem? bucket items below small]
  · rw [getElem?_eq_none (by rw [placed.length]; omega),
      getElem?_eq_none (by rw [length_sorted, total]; omega)]

theorem sort_out (fits : Fits word items.length) (bounded : ∀ item ∈ items, bucket item < buckets)
    (length : out.length = items.length) {next : List Nat}
    (starts : ∀ b < buckets, next[b + shift]? =
      (partialSums word 0 (countUp word (shift + 1) bucket items
        (List.replicate (buckets + shift + 1) 0)))[b + shift]?) :
    (place word shift bucket items ⟨next, out⟩).out = sorted buckets bucket items := by
  refine place_out fits bounded (fun b bound => ?_) length
  rw [starts b bound, starts_eq fits, getElem?_map, getElem?_range (by omega)]
  simp [before]

theorem sum_countUp_zero {offset length : Nat} (fits : Fits word items.length) :
    (countUp word offset bucket items (List.replicate length 0)).sum ≤ items.length := by
  rw [countUp_zero fits, sum_size]
  exact before_le ..

/-- A counting sort that counts one entry further leaves the start of every bucket. -/
theorem sort_next (fits : Fits word items.length) :
    (place word 1 bucket items ⟨partialSums word 0 (countUp word 2 bucket items
        (List.replicate (buckets + 2) 0)), out⟩).next =
      (List.range (buckets + 2)).map (before bucket items) := by
  rw [place_next, starts_eq fits]
  refine ext_getElem? fun i => ?_
  have below : ∀ i, before (fun item => bucket item + 1) items i +
      size (fun item => bucket item + 1) items i = before bucket items i := by
    intro i
    rw [← before_succ]
    simp only [before, add_lt_add_iff_right]
  rw [countUp_getElem?]
  · by_cases bound : i < buckets + 2
    · simp only [getElem?_map, getElem?_range bound, Option.map_some, below]
    · simp [bound]
  · intro j n found
    simp only [getElem?_map, Option.map_eq_some_iff] at found
    obtain ⟨k, inRange, rfl⟩ := found
    obtain ⟨_, same⟩ := List.getElem?_eq_some_iff.mp inRange
    rw [← same, getElem_range, below]
    exact fits.mono (before_le ..)

end Place

end CountingSort
