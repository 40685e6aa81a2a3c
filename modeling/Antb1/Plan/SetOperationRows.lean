import Antb1.Plan.SetFormulaProofs
import Antb1.Plan.Semantics

/-! The rows a SetOperation node answers, counted: a checked formula gives each row,
compared as a GROUP BY key, its value from the row's count in every input. -/
namespace Antb1.Plan

open Grouping List

variable {inputs : List (List (List Value))} {formula : List SetTerm} {root : SetTreeNode}

@[simp] theorem normalizeDouble_normalizeDouble (bits : BitVec 64) :
    normalizeDouble (normalizeDouble bits) = normalizeDouble bits := by
  by_cases nan : isNan bits = true
  · rw [show normalizeDouble bits = 0x7ff8000000000000#64 by simp [normalizeDouble, nan]]
    decide
  · by_cases zero : doubleMagnitude bits = 0
    · rw [show normalizeDouble bits = 0#64 by simp [normalizeDouble, nan, zero]]
      decide
    · rw [show normalizeDouble bits = bits by simp [normalizeDouble, nan, zero]]
      simp [normalizeDouble, nan, zero]

@[simp] theorem normalized_normalized (value : Value) :
    value.normalized.normalized = value.normalized := by
  cases value <;> simp [Value.normalized]

@[simp] theorem normalizedRow_normalizedRow (row : List Value) :
    normalizedRow (normalizedRow row) = normalizedRow row := by
  simp [normalizedRow]

/-- Every key that starts a group is answered as often as the tree says. -/
theorem setOperationRows_normalized (tree : setTreeOf formula = some root)
    (inputs : List (List (List Value))) :
    (setOperationRows formula inputs).map normalizedRow =
      (distinct ((startedRows formula inputs).map normalizedRow)).flatMap fun key =>
        List.replicate (copies root inputs key) key := by
  unfold setOperationRows
  simp only [tree, classes, flatMap_map, map_flatMap]
  apply flatMap_congr
  intro key member
  obtain ⟨first, rest, found, same⟩ := members_eq_cons (mem_distinct.mp member)
  rw [found]
  simp only [headD_cons, map_replicate, same]
  split
  · rw [← same, normalizedRow_normalizedRow]
  · rw [same]

theorem length_normalizedRow (row : List Value) : (normalizedRow row).length = row.length := by
  simp [normalizedRow]

theorem setOperationRows_length {width : Nat}
    (lengths : ∀ rows ∈ inputs, ∀ row ∈ rows, row.length = width) :
    ∀ row ∈ setOperationRows formula inputs, row.length = width := by
  intro row member
  cases tree : setTreeOf formula with
  | none => simp [setOperationRows, tree] at member
  | some root =>
    have normalized : normalizedRow row ∈ (setOperationRows formula inputs).map normalizedRow :=
      mem_map_of_mem member
    rw [setOperationRows_normalized tree] at normalized
    obtain ⟨key, started, same⟩ := mem_flatMap.mp normalized
    obtain ⟨first, from_, rfl⟩ := mem_map.mp (mem_distinct.mp started)
    obtain ⟨input, paired, inside⟩ := mem_flatMap.mp from_
    have equal := eq_of_mem_replicate same
    have length : first.length = width := by
      refine lengths input.1 (of_mem_zip paired).1 first ?_
      split at inside
      · exact inside
      · cases inside
    rw [← length_normalizedRow, equal, length_normalizedRow, length]

theorem mem_startedRows {row : List Value} {input : Nat} (member : row ∈ inputs.getD input [])
    (starts : (setStarters formula inputs.length)[input]? = some true) :
    row ∈ startedRows formula inputs := by
  cases found : inputs[input]? with
  | none => simp [getD_eq_getElem?_getD, found] at member
  | some rows =>
    have paired : (rows, true) ∈ inputs.zip (setStarters formula inputs.length) := by
      apply mem_of_getElem? (i := input)
      rw [getElem?_zip_eq_some]
      exact ⟨found, starts⟩
    refine mem_flatMap.mpr ⟨(rows, true), paired, ?_⟩
    simpa [getD_eq_getElem?_getD, found] using member

theorem copies_eq_zero (checked : checkSetFormula formula inputs.length = none)
    (tree : setTreeOf formula = some root) {key : List Value}
    (absent : key ∉ (startedRows formula inputs).map normalizedRow) :
    copies root inputs key = 0 := by
  obtain ⟨found, same, _, covers⟩ := setTreeOf_covers checked
  obtain rfl : found = root := by rw [tree] at same; exact (Option.some.inj same).symm
  refine value_eq_zero covers fun input starts => ?_
  obtain ⟨_, bound⟩ := starts_bound covers starts
  have marked : (setStarters formula inputs.length)[input]? = some true := by
    simp only [setStarters, tree]
    exact (markStarters_marks _ (by simpa using bound)).mpr (.inl starts)
  rw [count_eq_zero]
  intro member
  obtain ⟨row, inside, rfl⟩ := mem_map.mp member
  exact absent (mem_map_of_mem (mem_startedRows inside marked))

theorem count_setOperationRows (checked : checkSetFormula formula inputs.length = none)
    (tree : setTreeOf formula = some root) (key : List Value) :
    ((setOperationRows formula inputs).map normalizedRow).count key = copies root inputs key := by
  rw [setOperationRows_normalized tree, count_copies (nodup_distinct _)]
  split
  · rfl
  · rename_i absent
    exact (copies_eq_zero checked tree (by simpa using absent)).symm

end Antb1.Plan
