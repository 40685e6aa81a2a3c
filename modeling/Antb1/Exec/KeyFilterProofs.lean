import Antb1.Exec.JoinBuildProofs
import Antb1.Exec.KeyFilter

/-! A key filter holds every key of its build, by its hash and by its value. -/
namespace Antb1.Exec

open Plan Join List

variable {filter : KeyFilter} {hash : List Value → Nat} {spec : JoinBuildSpec}
  {builder : JoinTableBuilder} {parts : List (List Batch)} {affordable : Nat → Bool}

namespace KeyFilter

theorem maskWord_ne_zero (hash word : Nat) : maskWord hash word ≠ 0 := by
  have shift : (hash % 2 ^ 32 * kSalt.getD word 0) % 2 ^ 32 >>> 27 < 32 := by
    rw [Nat.shiftRight_eq_div_pow]
    omega
  intro zero
  have bits := congrArg BitVec.toNat zero
  have small := Nat.pow_lt_pow_right (a := 2) (by omega) shift
  rw [maskWord, BitVec.toNat_shiftLeft, Nat.shiftLeft_eq] at bits
  simp only [BitVec.toNat_ofNat] at bits
  rw [show 1 % 2 ^ 32 = 1 from rfl, Nat.one_mul, Nat.mod_eq_of_lt small] at bits
  exact absurd bits (Nat.two_pow_pos _).ne'

theorem or_and_ne_zero {x y mask : BitVec 32} (set : x &&& mask ≠ 0) : (x ||| y) &&& mask ≠ 0 := by
  intro zero
  apply set
  ext i inside
  have bit := congrArg (fun bits : BitVec 32 => bits[i]) zero
  simp at bit ⊢
  grind

theorem getD_setWord (hash block word : Nat) (words : List (BitVec 32)) (i : Nat) :
    (setWord hash block words word).getD i 0 =
      if block + word = i ∧ i < words.length then words.getD i 0 ||| maskWord hash word
      else words.getD i 0 := by
  unfold setWord
  simp only [getD_eq_getElem?_getD, getElem?_modify]
  by_cases here : block + word = i
  · by_cases inside : i < words.length
    · simp [here, inside]
    · simp [here, inside]
  · simp [here]

theorem foldl_setWord_length (hash block : Nat) (indices : List Nat) (words : List (BitVec 32)) :
    (indices.foldl (setWord hash block) words).length = words.length := by
  induction indices generalizing words with
  | nil => rfl
  | cons word rest ih => rw [foldl_cons, ih, setWord, length_modify]

theorem foldl_setWord_keeps (hash block : Nat) (indices : List Nat) {words : List (BitVec 32)}
    {i : Nat} {mask : BitVec 32} (set : words.getD i 0 &&& mask ≠ 0) :
    (indices.foldl (setWord hash block) words).getD i 0 &&& mask ≠ 0 := by
  induction indices generalizing words with
  | nil => exact set
  | cons word rest ih =>
    apply ih
    rw [getD_setWord]
    split
    · exact or_and_ne_zero set
    · exact set

theorem foldl_setWord_sets {hash block word : Nat} {indices : List Nat} (member : word ∈ indices)
    {words : List (BitVec 32)} (inside : block + word < words.length) :
    (indices.foldl (setWord hash block) words).getD (block + word) 0 &&& maskWord hash word ≠ 0 := by
  induction indices generalizing words with
  | nil => contradiction
  | cons first rest ih =>
    rw [foldl_cons]
    rcases mem_cons.mp member with rfl | later
    · apply foldl_setWord_keeps
      rw [getD_setWord, if_pos ⟨rfl, inside⟩, BitVec.or_comm]
      exact or_and_ne_zero (by simpa using maskWord_ne_zero hash word)
    · exact ih later (by rwa [setWord, length_modify])

def Formed (filter : KeyFilter) : Prop :=
  filter.words.length = (filter.blockMask + 1) * kWordsPerBlock

theorem Formed.add (formed : filter.Formed) (hash : Nat) : (filter.add hash).Formed := by
  unfold Formed KeyFilter.add
  rw [foldl_setWord_length]
  exact formed

theorem Formed.inside (formed : filter.Formed) (hash : Nat) {word : Nat}
    (small : word < kWordsPerBlock) : filter.blockAt hash + word < filter.words.length := by
  have block : (hash >>> 32) &&& filter.blockMask ≤ filter.blockMask := Nat.and_le_right
  rw [formed, blockAt, Nat.add_mul]
  have := Nat.mul_le_mul_right kWordsPerBlock block
  omega

theorem mayContain_iff (filter : KeyFilter) (hash : Nat) :
    filter.mayContain hash = true ↔ ∀ word < kWordsPerBlock,
      filter.words.getD (filter.blockAt hash + word) 0 &&& maskWord hash word ≠ 0 := by
  simp [mayContain]

theorem mayContain_add (formed : filter.Formed) (hash : Nat) :
    (filter.add hash).mayContain hash = true := by
  rw [mayContain_iff]
  intro word small
  exact foldl_setWord_sets (mem_range.mpr small) (formed.inside hash small)

theorem mayContain_add_of {hash : Nat} (other : Nat) (contained : filter.mayContain hash = true) :
    (filter.add other).mayContain hash = true := by
  rw [mayContain_iff] at contained ⊢
  intro word small
  exact foldl_setWord_keeps other (filter.blockAt other) _ (contained word small)

theorem mayContain_addAll_of {hash : Nat} (hashes : List Nat)
    (contained : filter.mayContain hash = true) :
    (filter.addAll hashes).mayContain hash = true := by
  induction hashes generalizing filter with
  | nil => exact contained
  | cons first rest ih => exact ih (mayContain_add_of first contained)

theorem mayContain_addAll (formed : filter.Formed) {hashes : List Nat} {hash : Nat}
    (member : hash ∈ hashes) : (filter.addAll hashes).mayContain hash = true := by
  induction hashes generalizing filter with
  | nil => contradiction
  | cons first rest ih =>
    rcases mem_cons.mp member with rfl | later
    · exact mayContain_addAll_of rest (mayContain_add formed hash)
    · exact ih (formed.add first) later

theorem make_formed {numKeys : Nat} (made : make numKeys affordable = some filter) :
    filter.Formed ∧ filter.keyRange = none := by
  unfold make at made
  split at made
  · contradiction
  · simp only at made
    split at made
    · contradiction
    · cases made
      refine ⟨?_, rfl⟩
      have positive : 0 < bitCeil (((numKeys * kBitsPerKey + 31) / 32 + kWordsPerBlock - 1) /
          kWordsPerBlock) := Nat.two_pow_pos _
      rw [Formed, length_replicate, Nat.sub_add_cancel positive]

/-- The published keys cover a value: it lies in no range that they rule out. -/
def Covers (filter : KeyFilter) (value : Int) : Prop :=
  ∀ low high, low ≤ value → value ≤ high → filter.mayHoldAKeyIn low high = true

theorem foldl_widen (values : List Int) {range : Option (Int × Int)} {low high : Int}
    (widened : values.foldl widen range = some (low, high)) :
    (∀ value ∈ values, low ≤ value ∧ value ≤ high) ∧
      ∀ first last, range = some (first, last) → low ≤ first ∧ last ≤ high := by
  induction values generalizing range with
  | nil =>
    refine ⟨fun _ member => absurd member not_mem_nil, ?_⟩
    rintro first last rfl
    cases widened
    exact ⟨le_rfl, le_rfl⟩
  | cons value rest ih =>
    obtain ⟨inside, wider⟩ := ih widened
    cases range with
    | none =>
      have here := wider value value rfl
      refine ⟨forall_mem_cons.mpr ⟨here, inside⟩, ?_⟩
      rintro _ _ ⟨⟩
    | some bounds =>
      have here := wider _ _ rfl
      refine ⟨forall_mem_cons.mpr ⟨by omega, inside⟩, ?_⟩
      rintro _ _ ⟨⟩
      simp only at here
      omega

/-- The search finds a key that is not after a value in the range. -/
theorem find_sorted {values : List Int} (sorted : values.Pairwise (· ≤ ·)) {low value : Int}
    (member : value ∈ values) (above : low ≤ value) :
    ∃ key, values.find? (low ≤ ·) = some key ∧ key ≤ value := by
  induction values with
  | nil => contradiction
  | cons first rest ih =>
    by_cases here : low ≤ first
    · refine ⟨first, by simp [here], ?_⟩
      rcases mem_cons.mp member with rfl | later
      · exact le_rfl
      · exact (pairwise_cons.mp sorted).1 value later
    · have later : value ∈ rest := (mem_cons.mp member).resolve_left fun same =>
        here (same ▸ above)
      obtain ⟨key, found, least⟩ := ih (pairwise_cons.mp sorted).2 later
      exact ⟨key, by simpa [here] using found, least⟩

theorem covers_published (filter : KeyFilter) {values : List Int} {range : Int × Int}
    (widened : values.foldl widen none = some range) (affordable : Bool) {value : Int}
    (member : value ∈ values) : (filter.publishKeys values range affordable).Covers value := by
  intro low high below above
  obtain ⟨first, last⟩ := range
  have bounds := (foldl_widen values widened).1 value member
  unfold mayHoldAKeyIn publishKeys
  cases affordable with
  | false =>
    simp
    omega
  | true =>
    have sorted := pairwise_insertionSort (· ≤ ·) values
    have inside : value ∈ values.insertionSort (· ≤ ·) :=
      (perm_insertionSort _ values).mem_iff.mpr member
    obtain ⟨key, found, least⟩ := find_sorted sorted inside below
    simp [ne_nil_of_mem inside, found]
    omega

theorem keyRange_addAll (filter : KeyFilter) (hashes : List Nat) :
    (filter.addAll hashes).keyRange = filter.keyRange := by
  induction hashes generalizing filter with
  | nil => rfl
  | cons hash rest ih => exact ih (filter.add hash)

theorem covers_unpublished (unpublished : filter.keyRange = none) (value : Int) :
    filter.Covers value := by
  intro low high _ _
  rw [mayHoldAKeyIn, unpublished]

end KeyFilter

theorem gathered_of_ok {words : Words} (hold : words.Hold)
    (built : gatherParts words spec hash parts = .ok builder) :
    Gathered spec hash parts.flatten builder := by
  rw [gatherParts_words hold] at built
  by_cases buildable : Buildable spec parts
  · obtain ⟨other, built', gathered⟩ := gatherParts_ok hash buildable
    cases built.symm.trans built'
    exact gathered
  · rw [gatherParts_error buildable] at built
    contradiction

theorem Gathered.piece_of_row {batches : List Batch} (gathered : Gathered spec hash batches builder)
    {row : Join.Record} (member : row ∈ batches.flatMap (keptRows spec)) :
    ∃ piece ∈ builder.pieces, row ∈ piece.rows ∧ hash (keyOf spec row) ∈ piece.hashes := by
  have hashed : (⟨row, hash (keyOf spec row)⟩ : HashedRow) ∈
      (groupsOf spec hash batches).flatten := by
    rw [flatten_groupsOf, flatMap_hashRows]
    exact mem_map_of_mem member
  obtain ⟨group, isGroup, inside⟩ := mem_flatten.mp hashed
  have placed := (CountingSort.sorted_perm byPartition group
    fun item _ => byPartition_lt item).mem_iff.mpr inside
  refine ⟨pieceOf group, ?_, mem_map_of_mem placed, mem_map_of_mem placed⟩
  rw [gathered.pieces]
  exact mem_map_of_mem isGroup

/-- A key filter over build rows without a NULL key. -/
structure HoldsKeys (spec : JoinBuildSpec) (hash : List Value → Nat)
    (rows : List Join.Record) (filter : KeyFilter) : Prop where
  hashes : ∀ row ∈ rows, filter.mayContain (hash (keyOf spec row)) = true
  values : ∀ row ∈ rows, ∀ value, keyOf spec row = [.int value] → filter.Covers value

theorem makeKeyFilter_holdsKeys {words : Words} (hold : words.Hold) {reserves : Bool}
    (built : gatherParts words spec hash parts = .ok builder)
    (made : makeKeyFilter spec builder affordable reserves = some filter) :
    HoldsKeys spec hash (parts.flatten.flatMap (keptRows spec)) filter := by
  have gathered := gathered_of_ok hold built
  unfold makeKeyFilter at made
  split at made
  · rename_i key isKey
    split at made
    · obtain ⟨empty, isEmpty, isFilter⟩ := Option.map_eq_some_iff.mp made
      obtain ⟨formed, unpublished⟩ := KeyFilter.make_formed isEmpty
      have contains : ∀ hash ∈ builder.pieces.flatMap (·.hashes),
          filter.mayContain hash = true := by
        intro hash member
        have contained := KeyFilter.mayContain_addAll formed member
        rw [← isFilter]
        simp only
        split
        · split <;> exact contained
        · exact contained
      have covers : ∀ value ∈ keyValuesOf key builder.pieces, filter.Covers value := by
        intro value member
        rw [← isFilter]
        simp only
        split
        · rename_i range widened
          split
          · exact KeyFilter.covers_published _ widened _ member
          · exact KeyFilter.covers_unpublished ((KeyFilter.keyRange_addAll ..).trans unpublished) value
        · exact KeyFilter.covers_unpublished ((KeyFilter.keyRange_addAll ..).trans unpublished) value
      constructor
      case hashes =>
        intro row member
        obtain ⟨piece, isPiece, -, hashed⟩ := Gathered.piece_of_row gathered member
        exact contains _ (mem_flatMap.mpr ⟨piece, isPiece, hashed⟩)
      case values =>
        intro row member value isValue
        obtain ⟨piece, isPiece, inPiece, -⟩ := Gathered.piece_of_row gathered member
        refine covers value (mem_flatMap.mpr ⟨piece, isPiece,
          mem_filterMap.mpr ⟨row, inPiece, ?_⟩⟩)
        rw [keyOf, isKey] at isValue
        simp only [map_cons, map_nil, List.cons.injEq, and_true] at isValue
        rw [isValue]
        rfl
    · contradiction
  · contradiction

theorem publishedFilter_holdsKeys {reserves : Bool}
    (made : publishedFilter spec hash parts affordable reserves = some filter) :
    HoldsKeys spec hash (parts.flatten.flatMap (keptRows spec)) filter := by
  unfold publishedFilter at made
  split at made
  · contradiction
  · rename_i builder built
    exact makeKeyFilter_holdsKeys machineWords_hold built made

end Antb1.Exec
