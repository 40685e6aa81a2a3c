import Mathlib.Data.List.GetD
import Antb1.Exec.JoinTable

/-! The directory of a partition: the entries grouped by key within their buckets, and one
slot for each key. -/
namespace Antb1.Exec.Join

open CountingSort Grouping List Nat

theorem seenKey_eq {κ : Type} [DecidableEq κ] {same : Nat → Bool} {keyAt : Nat → κ} {key : κ}
    (agrees : ∀ head, same head = true ↔ keyAt head = key) {heads : List Nat} {previous : Nat}
    (nodup : (heads.map keyAt).Nodup) (bound : previous < heads.length) :
    seenKey same heads previous =
      if key ∈ heads.map keyAt then some ((heads.map keyAt).idxOf key) else none := by
  have read : ∀ k (inside : k < heads.length),
      same (heads.getD k 0) = true ↔ (heads.map keyAt).idxOf key = k := by
    intro k inside
    rw [idxOf_eq_iff nodup (by simpa using inside), getElem_map, agrees,
      getD_eq_getElem _ _ inside]
  unfold seenKey
  split_ifs with first known known
  · rw [(read previous bound).mp first]
  · refine absurd (mem_map.mpr ⟨_, getElem_mem bound, ?_⟩) known
    rwa [getD_eq_getElem _ _ bound, agrees] at first
  · have small : (heads.map keyAt).idxOf key < heads.length := by
      simpa using idxOf_lt_length_iff.mpr known
    rw [find?_range_eq_some]
    have found := (read _ small).mpr rfl
    refine ⟨?_, mem_range.mpr small, ?_⟩
    · have other : (heads.map keyAt).idxOf key ≠ previous := by
        intro same
        exact first ((read previous bound).mpr same)
      rw [found, bne_iff_ne.mpr other, Bool.and_self]
    · intro k earlier
      have no : ¬ same (heads.getD k 0) = true := fun yes =>
        ne_of_gt earlier ((read k (by omega)).mp yes)
      rw [Bool.eq_false_of_not_eq_true no, Bool.and_false, Bool.not_false]
  · rw [find?_eq_none]
    intro k inRange yes
    rw [mem_range] at inRange
    simp only [Bool.and_eq_true] at yes
    refine known (mem_map.mpr ⟨_, getElem_mem inRange, ?_⟩)
    rw [← agrees, ← getD_eq_getElem _ 0 inRange]
    exact yes.2

section GroupBucket

variable {κ : Type} [DecidableEq κ] {sameKey : Entry → Entry → Bool} {cls : Entry → κ}
variable (agrees : ∀ a b, sameKey a b = true ↔ cls a = cls b) (entries : List Entry)

def HeadsOf (cls : Entry → κ) (entries : List Entry) (m : Nat) (heads : List Nat) : Prop :=
  heads.map (fun head => cls (entries.getD head default)) =
    distinct ((entries.take m).map cls)

variable {entries} {m : Nat} {heads : List Nat}

include agrees in
theorem HeadsOf.seenKey_eq (known : HeadsOf cls entries m heads) {previous : Nat}
    (bound : previous < heads.length) (i : Nat) :
    seenKey (fun b => sameKey (entries.getD i default) (entries.getD b default)) heads previous =
      if cls (entries.getD i default) ∈ (entries.take m).map cls then
        some ((distinct ((entries.take m).map cls)).idxOf (cls (entries.getD i default)))
      else none := by
  have nodup := nodup_distinct ((entries.take m).map cls)
  rw [← known] at nodup
  rw [Join.seenKey_eq (fun head => (agrees _ _).trans eq_comm) nodup bound, known]
  simp only [mem_distinct]

theorem HeadsOf.concat (known : HeadsOf cls entries m heads) (bound : m < entries.length)
    (new : cls (entries.getD m default) ∉ (entries.take m).map cls) :
    HeadsOf cls entries (m + 1) (heads ++ [m]) := by
  unfold HeadsOf at known ⊢
  rw [getD_eq_getElem _ _ bound] at new
  rw [map_append, known, take_succ_eq_append_getElem bound, map_append,
    map_singleton, map_singleton, distinct_concat, if_neg new,
    getD_eq_getElem _ _ bound]

theorem HeadsOf.keep (known : HeadsOf cls entries m heads) (bound : m < entries.length)
    (seen : cls (entries.getD m default) ∈ (entries.take m).map cls) :
    HeadsOf cls entries (m + 1) heads := by
  unfold HeadsOf at known ⊢
  rw [getD_eq_getElem _ _ bound] at seen
  rw [known, take_succ_eq_append_getElem bound, map_append, map_singleton,
    distinct_concat, if_pos seen]

theorem headsOf_one (some_ : 0 < entries.length) : HeadsOf cls entries 1 [0] := by
  unfold HeadsOf
  rw [take_succ_eq_append_getElem some_]
  simp [distinct, getElem?_eq_getElem some_]

/-- The first entries while each key's are together: the last one's key is the last key. -/
structure Scanned (cls : Entry → κ) (entries : List Entry) (m : Nat) (scan : Scan) : Prop where
  heads : HeadsOf cls entries m scan.heads
  last : scan.current + 1 = scan.heads.length
  classes : (classes cls (entries.take m)).flatten = entries.take m

include agrees in
theorem Scanned.step {scan : Scan} (bound : m < entries.length)
    (scanned : scan.together = true → Scanned cls entries m scan) :
    let next := scanEntry (fun a b => sameKey (entries.getD a default) (entries.getD b default))
      scan m
    next.together = true → Scanned cls entries (m + 1) next := by
  intro next together
  by_cases before : scan.together = true
  swap
  · have stuck : next = scan := by simp [next, scanEntry, before]
    exact absurd (stuck ▸ together) before
  obtain ⟨heads, last, grouped⟩ := scanned before
  have added := take_succ_eq_append_getElem bound
  have entry := getD_eq_getElem entries default bound
  have step : next = (seenKey (fun b => sameKey (entries.getD m default)
      (entries.getD b default)) scan.heads scan.current).elim
      ⟨scan.heads ++ [m], scan.heads.length, true⟩
      fun key => { scan with together := key = scan.current } := by
    dsimp only [next, scanEntry]
    rw [before]
    cases seenKey _ scan.heads scan.current <;> rfl
  rw [heads.seenKey_eq agrees (by omega)] at step
  split_ifs at step with seen
  · rw [step] at together ⊢
    refine ⟨heads.keep bound seen, last, ?_⟩
    have current := of_decide_eq_true together
    -- The key's number is the last one, so the key is the last of the keys seen.
    have count : (distinct ((entries.take m).map cls)).length = scan.heads.length := by
      rw [← heads, length_map]
    rw [idxOf_eq_iff (nodup_distinct _) (by omega)] at current
    have keys : distinct ((entries.take m).map cls) =
        (distinct ((entries.take m).map cls)).take scan.current ++ [cls entries[m]] := by
      have all : (distinct ((entries.take m).map cls)).length ≤ scan.current + 1 := by omega
      rw [← entry, ← current, ← take_succ_eq_append_getElem, take_of_length_le all]
    rw [added, flatten_classes_concat_last keys, grouped]
  · rw [step]
    refine ⟨heads.concat bound seen, by simp, ?_⟩
    rw [entry] at seen
    rw [added, classes_concat_new seen, flatten_append, grouped]
    rfl

structure Numbered (cls : Entry → κ) (entries : List Entry) (m : Nat) (numbers : KeyNumbers) :
    Prop where
  heads : HeadsOf cls entries m numbers.heads
  current : numbers.current < numbers.heads.length
  keys : numbers.keys = (entries.take m).map fun entry =>
    (distinct ((entries.take m).map cls)).idxOf (cls entry)

include agrees in
theorem Numbered.step {numbers : KeyNumbers} (bound : m < entries.length)
    (numbered : Numbered cls entries m numbers) :
    Numbered cls entries (m + 1) (numberEntry
      (fun a b => sameKey (entries.getD a default) (entries.getD b default)) numbers m) := by
  obtain ⟨heads, current, keys⟩ := numbered
  have added := take_succ_eq_append_getElem bound
  have entry := getD_eq_getElem entries default bound
  have count : (distinct ((entries.take m).map cls)).length = numbers.heads.length := by
    rw [← heads, length_map]
  unfold numberEntry
  rw [heads.seenKey_eq agrees current]
  split_ifs with seen
  · have same : distinct ((entries.take (m + 1)).map cls) = distinct ((entries.take m).map cls) :=
      by rw [← heads.keep bound seen, heads]
    refine ⟨heads.keep bound seen, ?_, ?_⟩
    · rw [← count]
      exact idxOf_lt_length_of_mem (mem_distinct.mpr seen)
    · simp only [same]
      rw [added, map_append, keys, map_singleton, entry]
  · have more : distinct ((entries.take (m + 1)).map cls) =
        distinct ((entries.take m).map cls) ++ [cls (entries.getD m default)] := by
      rw [← heads.concat bound seen, map_append, heads, map_singleton]
    refine ⟨heads.concat bound seen, by simp, ?_⟩
    simp only [more]
    rw [added, map_append, keys, map_singleton]
    congr 1
    · apply map_congr_left
      intro earlier member
      rw [idxOf_append_of_mem (mem_distinct.mpr (mem_map_of_mem member))]
    · rw [← entry, idxOf_append_of_notMem (fun member => seen (mem_distinct.mp member)),
        count]
      simp

include agrees in
theorem groupBucket_eq {words : Words} (fits : Fits words.narrow entries.length)
    (some_ : 0 < entries.length) :
    groupBucket words sameKey entries = (classes cls entries).flatten := by
  have steps : ∀ m, m + 1 ≤ entries.length → List.range' 1 (m + 1) = List.range' 1 m ++ [m + 1] := by
    intro m _
    rw [range'_concat, mul_comm, mul_one, add_comm]
  have scans : ∀ m, m + 1 ≤ entries.length →
      ((List.range' 1 m).foldl (scanEntry fun a b =>
        sameKey (entries.getD a default) (entries.getD b default)) {}).together = true →
      Scanned cls entries (m + 1) ((List.range' 1 m).foldl (scanEntry fun a b =>
        sameKey (entries.getD a default) (entries.getD b default)) {}) := by
    intro m
    induction m with
    | zero =>
      intro _ _
      refine ⟨headsOf_one some_, rfl, ?_⟩
      rw [take_succ_eq_append_getElem some_]
      simp [classes, distinct, members]
    | succ m ih =>
      intro bound
      rw [steps m (by omega), foldl_append, foldl_cons, foldl_nil]
      exact Scanned.step agrees bound (ih (by omega))
  have numbers : ∀ m, m + 1 ≤ entries.length →
      Numbered cls entries (m + 1) ((List.range' 1 m).foldl (numberEntry fun a b =>
        sameKey (entries.getD a default) (entries.getD b default)) {}) := by
    intro m
    induction m with
    | zero =>
      intro _
      refine ⟨headsOf_one some_, by simp, ?_⟩
      rw [take_succ_eq_append_getElem some_]
      simp [distinct]
    | succ m ih =>
      intro bound
      rw [steps m (by omega), foldl_append, foldl_cons, foldl_nil]
      exact (ih (by omega)).step agrees bound
  have whole : entries.take (entries.length - 1 + 1) = entries :=
    take_of_length_le (by omega)
  unfold groupBucket
  simp only
  split_ifs with together
  · have scanned := (scans (entries.length - 1) (by omega) together).classes
    rw [whole] at scanned
    exact scanned.symm
  · have numbered := numbers (entries.length - 1) (by omega)
    generalize (List.range' 1 (entries.length - 1)).foldl (numberEntry fun a b =>
      sameKey (entries.getD a default) (entries.getD b default)) {} = final at numbered
    obtain ⟨heads, -, keys⟩ := numbered
    rw [HeadsOf, whole] at heads
    rw [whole] at keys
    have count : final.heads.length = (distinct (entries.map cls)).length := by
      rw [← heads, length_map]
    have items : final.keys.zip entries = entries.map fun entry =>
        ((distinct (entries.map cls)).idxOf (cls entry), entry) := by
      rw [keys]
      have pairs := zip_map' (l := entries) (g := id)
        (f := fun entry => (distinct (entries.map cls)).idxOf (cls entry))
      rwa [map_id] at pairs
    have bounded : ∀ item ∈ final.keys.zip entries, item.1 < final.heads.length := by
      rw [items, count]
      intro item member
      obtain ⟨entry, among, rfl⟩ := mem_map.mp member
      exact idxOf_lt_length_of_mem (mem_distinct.mpr (mem_map_of_mem among))
    have size : (final.keys.zip entries).length = entries.length := by rw [items, length_map]
    rw [sort_out (by rwa [size]) bounded (by rw [size, length_replicate]) fun _ _ => rfl,
      sorted, map_flatMap, items, count, ← flatMap_numbers]
    simp [filter_map, Function.comp_def]

end GroupBucket

theorem slice_middle {α : Type} {first middle last : List α} {begin stop : Nat}
    (begins : first.length = begin) (stops : begin + middle.length = stop) :
    slice (first ++ middle ++ last) begin stop = middle := by
  subst begins stops
  rw [slice, append_assoc, drop_left, Nat.add_sub_cancel_left, take_left]

theorem writeAt_middle {α : Type} {first middle last values : List α} {begin : Nat}
    (begins : first.length = begin) (same : values.length = middle.length) :
    writeAt (first ++ middle ++ last) begin values = first ++ values ++ last := by
  subst begins
  have head : (first ++ middle ++ last).take first.length = first := by
    rw [append_assoc, take_left]
  rw [writeAt, same, head, ← length_append, drop_left]

section Buckets

variable {κ : Type} [DecidableEq κ] (cls : Entry → κ) (bucket : Entry → Nat)
  (entries : List Entry) {buckets k : Nat}

def bucketEntries (b : Nat) : List Entry :=
  entries.filter fun entry => bucket entry = b

/-- The keys' entries in the buckets below `k`. -/
def classesBelow (k : Nat) : List (List Entry) :=
  (List.range k).flatMap fun b => classes cls (bucketEntries bucket entries b)

theorem classesBelow_succ (k : Nat) :
    classesBelow cls bucket entries (k + 1) =
      classesBelow cls bucket entries k ++ classes cls (bucketEntries bucket entries k) := by
  rw [classesBelow, range_succ, flatMap_append, flatMap_singleton, classesBelow]

theorem length_flatten_classesBelow (k : Nat) :
    (classesBelow cls bucket entries k).flatten.length = before bucket entries k := by
  induction k with
  | zero => simp [classesBelow]
  | succ k ih =>
    rw [classesBelow_succ, flatten_append, length_append, ih, before_succ,
      (flatten_classes_perm cls _).length_eq, size_eq_filter, bucketEntries]

theorem length_classesBelow_le (k : Nat) :
    (classesBelow cls bucket entries k).length ≤ before bucket entries k := by
  induction k with
  | zero => simp [classesBelow]
  | succ k ih =>
    have keys := length_distinct_le ((bucketEntries bucket entries k).map cls)
    rw [length_map, bucketEntries, ← size_eq_filter] at keys
    rw [classesBelow_succ, length_append, before_succ, classes, length_map]
    exact Nat.add_le_add ih keys

theorem classesBelow_split (inside : k < buckets) :
    ∃ rest, classesBelow cls bucket entries buckets =
      classesBelow cls bucket entries k ++ classes cls (bucketEntries bucket entries k) ++
        rest := by
  refine ⟨(List.range' (k + 1) (buckets - (k + 1))).flatMap fun b =>
    classes cls (bucketEntries bucket entries b), ?_⟩
  have split : List.range buckets = List.range (k + 1) ++ List.range' (k + 1) (buckets - (k + 1)) := by
    have both := range'_append_1 (s := 0) (m := k + 1) (n := buckets - (k + 1))
    rw [zero_add, Nat.add_sub_cancel' inside] at both
    rw [range_eq_range', range_eq_range', both]
  rw [← classesBelow_succ, classesBelow, split, flatMap_append, classesBelow]

theorem slice_bucket (inside : k < buckets) :
    slice (classesBelow cls bucket entries buckets).flatten (before bucket entries k)
      (before bucket entries (k + 1)) =
      (classes cls (bucketEntries bucket entries k)).flatten := by
  obtain ⟨rest, split⟩ := classesBelow_split cls bucket entries inside
  rw [split, flatten_append, flatten_append]
  apply slice_middle (length_flatten_classesBelow ..)
  rw [(flatten_classes_perm cls _).length_eq, before_succ, size_eq_filter, bucketEntries]

/-- The entries once the buckets below `k` are grouped. -/
def groupedBelow (buckets k : Nat) : List Entry :=
  (classesBelow cls bucket entries k).flatten ++
    (List.range' k (buckets - k)).flatMap (bucketEntries bucket entries)

variable {cls bucket entries} {words : Words} {sameKey : Entry → Entry → Bool}
  (agrees : ∀ a b, sameKey a b = true ↔ cls a = cls b)

theorem flatten_classes_short {rows : List Entry} (short : rows.length ≤ 1) :
    (classes cls rows).flatten = rows :=
  match rows, short with
  | [], _ => rfl
  | [entry], _ => by simp [classes, distinct, members]

include agrees in
theorem groupBuckets_step (fits : Fits words.narrow entries.length) {starts : List Nat}
    (inside : k < buckets) (begins : starts.getD k 0 = before bucket entries k)
    (stops : starts.getD (k + 1) 0 = before bucket entries (k + 1)) :
    groupBuckets words sameKey starts (groupedBelow cls bucket entries buckets k) k =
      groupedBelow cls bucket entries buckets (k + 1) := by
  have count : size bucket entries k = (bucketEntries bucket entries k).length :=
    size_eq_filter bucket entries k
  have rest : buckets - k = buckets - (k + 1) + 1 := by omega
  have first := length_flatten_classesBelow cls bucket entries k
  have split : groupedBelow cls bucket entries buckets k =
      (classesBelow cls bucket entries k).flatten ++ bucketEntries bucket entries k ++
        (List.range' (k + 1) (buckets - (k + 1))).flatMap (bucketEntries bucket entries) := by
    rw [groupedBelow, rest, range'_succ, flatMap_cons, append_assoc]
  have goal : groupedBelow cls bucket entries buckets (k + 1) =
      (classesBelow cls bucket entries k).flatten ++
        (classes cls (bucketEntries bucket entries k)).flatten ++
        (List.range' (k + 1) (buckets - (k + 1))).flatMap (bucketEntries bucket entries) := by
    rw [groupedBelow, classesBelow_succ, flatten_append]
  rw [groupBuckets, begins, stops, before_succ, Nat.add_sub_cancel_left, goal, split]
  split_ifs with short
  · rw [flatten_classes_short (count ▸ short)]
  · rw [slice_middle first (by rw [count]), groupBucket_eq agrees, writeAt_middle first]
    · exact (flatten_classes_perm cls _).length_eq
    · exact fits.mono (length_filter_le _ _)
    · omega

include agrees in
theorem groupBuckets_all (fits : Fits words.narrow entries.length) :
    (List.range buckets).foldl
      (groupBuckets words sameKey ((List.range (buckets + 2)).map (before bucket entries)))
      (sorted buckets bucket entries) = (classesBelow cls bucket entries buckets).flatten := by
  have upTo : ∀ k ≤ buckets, (List.range k).foldl
      (groupBuckets words sameKey ((List.range (buckets + 2)).map (before bucket entries)))
      (sorted buckets bucket entries) = groupedBelow cls bucket entries buckets k := by
    intro k
    induction k with
    | zero =>
      intro _
      simp only [groupedBelow, classesBelow, sorted, range_eq_range']
      rfl
    | succ k ih =>
      intro bound
      rw [range_succ (n := k), foldl_append, foldl_cons, foldl_nil,
        ih (by omega)]
      have read : ∀ b < buckets + 2, ((List.range (buckets + 2)).map
          (before bucket entries)).getD b 0 = before bucket entries b := by
        intro b inside
        simp [inside]
      exact groupBuckets_step agrees fits bound (read k (by omega)) (read (k + 1) (by omega))
  rw [upTo buckets (le_refl _), groupedBelow, Nat.sub_self]
  simp

end Buckets

/-- A slot for each class, the first one's rows beginning at `place`. -/
def classSlots (place : Nat) : List (List Entry) → List KeySlot
  | [] => []
  | entries :: rest =>
    ⟨(entries.headD default).hash, place, place + entries.length⟩ ::
      classSlots (place + entries.length) rest

@[simp] theorem length_classSlots (place : Nat) (groups : List (List Entry)) :
    (classSlots place groups).length = groups.length := by
  induction groups generalizing place with
  | nil => rfl
  | cons entries rest ih => simp [classSlots, ih]

theorem classSlots_append (place : Nat) (first second : List (List Entry)) :
    classSlots place (first ++ second) =
      classSlots place first ++ classSlots (place + first.flatten.length) second := by
  induction first generalizing place with
  | nil => rfl
  | cons entries rest ih =>
    rw [cons_append, classSlots, ih, flatten_cons, length_append, classSlots,
      cons_append, add_assoc]

theorem mem_classSlots {place : Nat} {groups : List (List Entry)} {slot : KeySlot}
    (member : slot ∈ classSlots place groups) :
    ∃ first entries rest, groups = first ++ entries :: rest ∧
      slot = ⟨(entries.headD default).hash, place + first.flatten.length,
        place + first.flatten.length + entries.length⟩ := by
  induction groups generalizing place with
  | nil => cases member
  | cons entries rest ih =>
    rcases mem_cons.mp member with rfl | later
    · exact ⟨[], entries, rest, rfl, by simp⟩
    · obtain ⟨first, group, after, rfl, rfl⟩ := ih later
      refine ⟨entries :: first, group, after, rfl, ?_⟩
      rw [flatten_cons, length_append, add_assoc place]

section Slots

variable {κ : Type} [DecidableEq κ] {cls : Entry → κ} {words : Words}
  {sameKey : Entry → Entry → Bool} (agrees : ∀ a b, sameKey a b = true ↔ cls a = cls b)

omit [DecidableEq κ] in
include agrees in
/-- The scan passes the entries of its key and stops at another key. -/
theorem slotsFrom_run {first at_ stop : Nat} {head : Entry} {run rest : List Entry}
    (alike : ∀ entry ∈ run, cls entry = cls head)
    (other : ∀ entry ∈ rest.head?, cls entry ≠ cls head) :
    slotsFrom words sameKey first head at_ stop (run ++ rest) =
      makeSlot words first head at_ (stop + run.length) ::
        slotsOf words sameKey first (stop + run.length) rest := by
  induction run generalizing stop with
  | nil =>
    cases rest with
    | nil => rfl
    | cons entry rest =>
      have different : sameKey head entry = false := by
        rw [Bool.eq_false_iff, ne_eq, agrees]
        exact fun same => other entry rfl same.symm
      rw [nil_append, slotsFrom, different]
      rfl
  | cons entry run ih =>
    have same : sameKey head entry = true := (agrees _ _).mpr (alike entry (by simp)).symm
    rw [cons_append, slotsFrom, if_pos same,
      ih fun entry member => alike entry (mem_cons_of_mem _ member), length_cons,
      add_right_comm, add_assoc]

include agrees in
theorem slotsOf_members {entries : List Entry} {first at_ : Nat} {keys : List κ}
    (nodup : keys.Nodup) (occur : ∀ key ∈ keys, key ∈ entries.map cls)
    (fits : Fits words.narrow (first + at_ + (keys.flatMap (members cls entries)).length)) :
    slotsOf words sameKey first at_ (keys.flatMap (members cls entries)) =
      classSlots (first + at_) (keys.map (members cls entries)) := by
  induction keys generalizing at_ with
  | nil => rfl
  | cons key rest ih =>
    rw [nodup_cons] at nodup
    obtain ⟨head, run, own, keyed⟩ := members_eq_cons (occur key (by simp))
    have alike : ∀ entry ∈ run, cls entry = cls head := by
      intro entry member
      have among : entry ∈ members cls entries key := own ▸ mem_cons_of_mem _ member
      rw [members, mem_filter, decide_eq_true_eq] at among
      rw [among.2, keyed]
    have other : ∀ entry ∈ (rest.flatMap (members cls entries)).head?, cls entry ≠ cls head := by
      intro entry found same
      obtain ⟨of, member, among⟩ := mem_flatMap.mp (mem_of_mem_head? found)
      rw [members, mem_filter, decide_eq_true_eq] at among
      rw [among.2, keyed] at same
      exact nodup.1 (same ▸ member)
    rw [flatMap_cons, own, length_append, length_cons] at fits
    rw [flatMap_cons, map_cons, own, cons_append, slotsOf,
      slotsFrom_run agrees alike other, ih nodup.2 (fun key member => occur key (by simp [member]))
        (fits.mono (by omega)), classSlots, makeSlot,
      (fits.mono (show first + at_ ≤ _ by omega)).mod_eq,
      (fits.mono (show first + (at_ + 1 + run.length) ≤ _ by omega)).mod_eq, length_cons]
    have sum : first + (at_ + 1 + run.length) = first + at_ + (run.length + 1) := by omega
    rw [sum]
    rfl

variable {bucket : Entry → Nat} {entries : List Entry} {first buckets : Nat}

/-- The scan of the slots, the buckets below `k` done. -/
structure Slotted (cls : Entry → κ) (bucket : Entry → Nat) (entries : List Entry)
    (first buckets k : Nat) (slotting : Slotting) : Prop where
  begin : slotting.begin = before bucket entries k
  starts : slotting.starts = (List.range (buckets + 2)).map fun b =>
    if b < k then (classesBelow cls bucket entries b).length else before bucket entries b
  slots : slotting.slots = classSlots first (classesBelow cls bucket entries k)

include agrees in
theorem Slotted.step {first buckets k : Nat} {slotting : Slotting} (inside : k < buckets)
    (fits : Fits words.narrow (first + entries.length))
    (slotted : Slotted cls bucket entries first buckets k slotting) :
    Slotted cls bucket entries first buckets (k + 1)
      (slotBucket words sameKey first (classesBelow cls bucket entries buckets).flatten
        slotting k) := by
  obtain ⟨begin, starts, slots⟩ := slotted
  have stop : slotting.starts.getD (k + 1) 0 = before bucket entries (k + 1) := by
    rw [starts]
    simp [show k + 1 < buckets + 2 by omega]
  have most := before_le bucket entries (k + 1)
  have own : (classes cls (bucketEntries bucket entries k)).flatten.length =
      size bucket entries k := by
    rw [(flatten_classes_perm cls _).length_eq, size_eq_filter, bucketEntries]
  rw [before_succ] at most
  have slots' : slotsOf words sameKey first (before bucket entries k)
      (classes cls (bucketEntries bucket entries k)).flatten =
      classSlots (first + before bucket entries k)
        (classes cls (bucketEntries bucket entries k)) := by
    rw [classes, ← flatMap_def] at own ⊢
    exact slotsOf_members agrees (nodup_distinct _) (fun key member => mem_distinct.mp member)
      (fits.mono (by omega))
  rw [slotBucket, stop, begin, slice_bucket cls bucket entries inside, slots']
  refine ⟨rfl, ?_, ?_⟩
  · have few := length_classesBelow_le cls bucket entries k
    dsimp only
    rw [slots, length_classSlots, (fits.mono (show _ ≤ first + entries.length by omega)).mod_eq,
      starts]
    refine ext_getElem? fun b => ?_
    rw [getElem?_set]
    by_cases bound : b < buckets + 2
    · rcases lt_trichotomy k b with above | rfl | below
      · have after : ¬ b < k ∧ ¬ b < k + 1 := by omega
        rw [if_neg (Nat.ne_of_lt above), getElem?_map, getElem?_map,
          getElem?_range bound]
        simp only [Option.map_some, if_neg after.1, if_neg after.2]
      · simp [bound]
      · rw [if_neg (ne_of_gt below), getElem?_map, getElem?_map,
          getElem?_range bound]
        simp only [Option.map_some, if_pos below, if_pos (lt_succ_of_lt below)]
    · simp [bound]
      omega
  · dsimp only
    rw [slots, classesBelow_succ, classSlots_append, length_flatten_classesBelow]

theorem slotted_zero (first buckets : Nat) :
    Slotted cls bucket entries first buckets 0
      ⟨0, (List.range (buckets + 2)).map (before bucket entries), []⟩ :=
  ⟨(before_zero ..).symm, by simp, rfl⟩

include agrees in
theorem slotted_all (fits : Fits words.narrow (first + entries.length)) :
    Slotted cls bucket entries first buckets buckets
      ((List.range buckets).foldl (slotBucket words sameKey first
        (classesBelow cls bucket entries buckets).flatten)
        ⟨0, (List.range (buckets + 2)).map (before bucket entries), []⟩) := by
  have upTo : ∀ k ≤ buckets, Slotted cls bucket entries first buckets k
      ((List.range k).foldl (slotBucket words sameKey first
        (classesBelow cls bucket entries buckets).flatten)
        ⟨0, (List.range (buckets + 2)).map (before bucket entries), []⟩) := by
    intro k
    induction k with
    | zero => exact fun _ => slotted_zero first buckets
    | succ k ih =>
      intro bound
      rw [range_succ (n := k), foldl_append, foldl_cons, foldl_nil]
      exact (ih (by omega)).step agrees bound fits
  exact upTo buckets (le_refl _)

theorem bucketOf_lt (n hash : Nat) : bucketOf (bitCeil n - 1) hash < bitCeil n := by
  have positive : 0 < bitCeil n := Nat.two_pow_pos _
  have most : bucketOf (bitCeil n - 1) hash ≤ bitCeil n - 1 := and_le_right
  omega

/-- The bucket of an entry in the directory of a partition with `entries`. -/
abbrev bucketIn (entries : List Entry) (entry : Entry) : Nat :=
  bucketOf (bitCeil entries.length - 1) entry.hash

/-- The keys' entries of a partition in the buckets below `k`. -/
def partitionClasses (cls : Entry → κ) (entries : List Entry) (k : Nat) : List (List Entry) :=
  classesBelow cls (bucketIn entries) entries k

/-- The starts once the last one is set and the spare entry is gone. -/
theorem starts_done (buckets : Nat) (slots entries : Nat → Nat) :
    (((List.range (buckets + 2)).map fun b => if b < buckets then slots b else entries b).set
      buckets (slots buckets)).dropLast = (List.range (buckets + 1)).map slots := by
  refine ext_getElem? fun b => ?_
  rw [getElem?_dropLast, getElem?_set]
  simp only [length_set, length_map, length_range]
  rcases lt_trichotomy b buckets with below | rfl | above
  · simp [below, show b < buckets + 1 by omega, show b < buckets + 2 by omega, ne_of_gt below]
  · simp
  · simp [show ¬ b < buckets + 1 by omega]

theorem sort_buckets (fits : Fits words.narrow entries.length)
    (bounded : ∀ entry ∈ entries, bucket entry < buckets) {out : List Entry}
    (length : out.length = entries.length) :
    place words.narrow 1 bucket entries
      ⟨partialSums words.narrow 0 (countUp words.narrow 2 bucket entries
        (List.replicate (buckets + 2) 0)), out⟩ =
      ⟨(List.range (buckets + 2)).map (before bucket entries), sorted buckets bucket entries⟩ :=
  congrArg₂ Placing.mk (sort_next fits) (sort_out fits bounded length fun _ _ => rfl)

include agrees in
/-- The entries of a partition, one key after another, and a slot for each key. -/
theorem buildDirectory_eq (fits : Fits words.narrow (first + entries.length))
    (some_ : entries.length ≠ 0) :
    buildDirectory words sameKey first entries =
      ((partitionClasses cls entries (bitCeil entries.length)).flatten,
        ⟨bitCeil entries.length - 1,
          (List.range (bitCeil entries.length + 1)).map fun b =>
            (partitionClasses cls entries b).length,
          classSlots first (partitionClasses cls entries (bitCeil entries.length))⟩) := by
  have own : Fits words.narrow entries.length := fits.mono (by omega)
  have bounded : ∀ entry ∈ entries,
      bucketOf (bitCeil entries.length - 1) entry.hash < bitCeil entries.length :=
    fun entry _ => bucketOf_lt entries.length entry.hash
  unfold buildDirectory partitionClasses
  rw [if_neg some_]
  dsimp only
  rw [sort_buckets own bounded length_replicate]
  dsimp only
  rw [groupBuckets_all agrees own]
  obtain ⟨-, starts, slots⟩ := slotted_all agrees fits
  rw [starts, slots, length_classSlots]
  have few := (length_classesBelow_le cls (bucketIn entries) entries
    (bitCeil entries.length)).trans (before_le ..)
  rw [(own.mono few).mod_eq]
  congr 2
  exact starts_done (bitCeil entries.length)
    (fun b => (classesBelow cls (bucketIn entries) entries b).length) _

end Slots

end Antb1.Exec.Join
