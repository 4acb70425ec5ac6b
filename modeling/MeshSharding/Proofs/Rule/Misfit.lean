import MeshSharding.Proofs.Rule.Verify

/-! What keeps a rule from verifying. If all mappings give the dimensions of their shapes distinct
factors of the rule, the sizes of the factors are all that is left to check. -/
namespace MeshSharding
namespace Rule

variable {r : Rule}

/-- A dimension has another size than the product of its factors, and is not exempt. -/
structure Misfit (r : Rule) (dims : List (List Nat)) (shape : Shape) (dim : Nat)
    (factors : List Nat) (size : Nat) : Prop where
  factors_eq : dims[dim]? = some factors
  size_eq : shape[dim]? = some size
  product_ne : r.productOf factors ≠ size
  not_exempt : r.isExempt factors = false

theorem exists_checkFactors_eq_ok (t : TensorRef) {seen fs : List Nat} (hn : fs.Nodup)
    (h : ∀ f ∈ fs, f < r.factorCount ∧ f ∉ seen) :
    ∃ seen', r.checkFactors t seen fs = .ok seen' := by
  induction fs generalizing seen with
  | nil => exact ⟨seen, rfl⟩
  | cons f fs ih =>
    obtain ⟨⟨hlt, hseen⟩, hrest⟩ := List.forall_mem_cons.1 h
    obtain ⟨hfresh, hn⟩ := List.nodup_cons.1 hn
    rw [checkFactors, if_neg (Nat.not_le.2 hlt), if_neg hseen]
    refine ih hn fun g hg => ⟨(hrest g hg).1, fun hmem => ?_⟩
    rcases List.mem_cons.1 hmem with rfl | hmem
    · exact hfresh hg
    · exact (hrest g hg).2 hmem

/-- Of distinct factors, only the product can be wrong. -/
theorem checkDims_eq_ok_or_misfit (t : TensorRef) (dim : Nat) (shape : Shape) {seen : List Nat}
    {dims : List (List Nat)} (hmapped : ∀ fs ∈ dims, fs ≠ []) (hn : dims.flatten.Nodup)
    (h : ∀ f ∈ dims.flatten, f < r.factorCount ∧ f ∉ seen) :
    r.checkDims t dim seen dims shape = .ok () ∨
      ∃ i fs size, r.Misfit dims shape i fs size ∧
        r.checkDims t dim seen dims shape
          = malformed (.dimSize t (dim + i) (r.productOf fs) size) := by
  induction dims generalizing dim seen shape with
  | nil => exact .inl (by simp [checkDims])
  | cons fs dims ih =>
    cases shape with
    | nil => exact .inl (by simp [checkDims])
    | cons size shape =>
      obtain ⟨hne, hmapped⟩ := List.forall_mem_cons.1 hmapped
      rw [List.flatten_cons] at hn h
      obtain ⟨hfs, hdims, hapart⟩ := List.nodup_append.1 hn
      obtain ⟨hknown, hrest⟩ := List.forall_mem_append.1 h
      obtain ⟨seen', hseen⟩ := exists_checkFactors_eq_ok t hfs hknown
      have hmem := (checkFactors_eq_ok hseen).2.2
      have hempty : ¬ fs.isEmpty = true := fun hnil => hne (List.isEmpty_iff.1 hnil)
      simp only [checkDims, if_neg hempty, hseen, bind, Except.bind]
      by_cases hmisfit : r.productOf fs ≠ size ∧ (!r.isExempt fs) = true
      · rw [if_pos hmisfit]
        exact .inr ⟨0, fs, size, ⟨rfl, rfl, hmisfit.1, by simpa using hmisfit.2⟩, rfl⟩
      · rw [if_neg hmisfit]
        have hfresh : ∀ f ∈ dims.flatten, f < r.factorCount ∧ f ∉ seen' := fun f hf =>
          ⟨(hrest f hf).1, fun hin => ((hmem f).1 hin).elim
            (fun hin => hapart f hin f hf rfl) (hrest f hf).2⟩
        rcases ih (dim + 1) shape hmapped hdims hfresh with
          hok | ⟨i, fs', size', ⟨hi, hsize, hne, hexempt⟩, herror⟩
        · exact .inl hok
        · refine .inr ⟨i + 1, fs', size', ⟨hi, hsize, hne, hexempt⟩, ?_⟩
          rw [herror, Nat.add_assoc, Nat.add_comm 1]

/-- Of mappings of the shapes, only a product can be wrong. -/
theorem checkTensors_eq_ok_or_misfit (side : Side) (index : Nat) {mappings : List Mapping}
    {shapes : List Shape} (h : List.Forall₂ r.Maps mappings shapes) :
    r.checkTensors side index mappings shapes = .ok () ∨
      ∃ i dim mapping shape fs size, mappings[i]? = some mapping ∧ shapes[i]? = some shape ∧
        r.Misfit mapping.dims shape dim fs size ∧
        r.checkTensors side index mappings shapes
          = malformed (.dimSize ⟨side, index + i⟩ dim (r.productOf fs) size) := by
  induction h generalizing index with
  | nil => exact .inl rfl
  | @cons mapping shape mappings shapes hmaps _ ih =>
    rw [checkTensors, if_neg (not_not_intro hmaps.rank)]
    have hknown : ∀ f ∈ mapping.dims.flatten, f < r.factorCount ∧ f ∉ ([] : List Nat) :=
      fun f hf => ⟨hmaps.known f hf, List.not_mem_nil⟩
    rcases checkDims_eq_ok_or_misfit ⟨side, index⟩ 0 shape
      hmaps.mapped hmaps.nodup hknown with hok | ⟨dim, fs, size, hbad, herror⟩
    · rcases ih (index + 1) with
        hrest | ⟨i, dim, mapping', shape', fs, size, hmapping, hshape, hbad, herror⟩
      · exact .inl (by rw [hok, hrest]; rfl)
      · refine .inr ⟨i + 1, dim, mapping', shape', fs, size, hmapping, hshape, hbad, ?_⟩
        rw [hok, herror, Nat.add_assoc, Nat.add_comm 1]
        rfl
    · refine .inr ⟨0, dim, mapping, shape, fs, size, rfl, rfl, hbad, ?_⟩
      rw [herror, Nat.zero_add]
      rfl

/-- A rule that maps the shapes verifies, or a dimension is not the product of its factors. -/
theorem verify_eq_ok_or_misfit {sig : Signature}
    (h : ∀ side, List.Forall₂ r.Maps (r.mappings side) (sig.shapes side)) :
    r.verify sig = .ok () ∨
      ∃ t mapping shape dim fs size, r.mapping? t = some mapping ∧
        (sig.shapes t.side)[t.index]? = some shape ∧ r.Misfit mapping.dims shape dim fs size ∧
        r.verify sig = malformed (.dimSize t dim (r.productOf fs) size) := by
  have hside : ∀ side, r.checkSide side (sig.shapes side)
      = r.checkTensors side 0 (r.mappings side) (sig.shapes side) := fun side => by
    rw [checkSide, if_neg (not_not_intro (h side).length_eq)]
  have hverify : r.verify sig = r.checkSide .operand (sig.shapes .operand) >>= fun _ =>
      r.checkSide .result (sig.shapes .result) := rfl
  rw [hverify, hside, hside]
  rcases checkTensors_eq_ok_or_misfit .operand 0 (h .operand) with
    hok | ⟨i, dim, mapping, shape, fs, size, hmapping, hshape, hbad, herror⟩
  · rw [hok]
    rcases checkTensors_eq_ok_or_misfit .result 0 (h .result) with
      hok | ⟨i, dim, mapping, shape, fs, size, hmapping, hshape, hbad, herror⟩
    · exact .inl hok
    · refine .inr ⟨⟨.result, i⟩, mapping, shape, dim, fs, size, hmapping, hshape, hbad, ?_⟩
      rw [Nat.zero_add] at herror
      exact herror
  · refine .inr ⟨⟨.operand, i⟩, mapping, shape, dim, fs, size, hmapping, hshape, hbad, ?_⟩
    rw [herror, Nat.zero_add]
    rfl

theorem not_misfit_of_checkDims {t : TensorRef} {dim : Nat} {seen : List Nat}
    {dims : List (List Nat)} {shape : Shape} (h : r.checkDims t dim seen dims shape = .ok ())
    (i : Nat) (fs : List Nat) (size : Nat) : ¬ r.Misfit dims shape i fs size := by
  rintro ⟨hfs, hsize, hne, hexempt⟩
  induction dims generalizing dim seen shape i with
  | nil => cases hfs
  | cons first dims ih =>
    cases shape with
    | nil => cases hsize
    | cons firstSize shape =>
      rw [checkDims] at h
      split at h
      · cases h
      · obtain ⟨seen', -, h⟩ := bind_eq_ok_iff.1 h
        split at h
        · cases h
        · rename_i hfits
          cases i with
          | zero =>
            cases hfs
            cases hsize
            exact hfits ⟨hne, by rw [hexempt]; rfl⟩
          | succ i => exact ih h i hfs hsize

theorem not_misfit_of_checkTensors {side : Side} {index : Nat} {mappings : List Mapping}
    {shapes : List Shape} (h : r.checkTensors side index mappings shapes = .ok ()) {i : Nat}
    {mapping : Mapping} {shape : Shape} (hm : mappings[i]? = some mapping)
    (hs : shapes[i]? = some shape) (dim : Nat) (fs : List Nat) (size : Nat) :
    ¬ r.Misfit mapping.dims shape dim fs size := by
  induction mappings generalizing index shapes i with
  | nil => cases hm
  | cons first mappings ih =>
    cases shapes with
    | nil => cases hs
    | cons firstShape shapes =>
      rw [checkTensors] at h
      split at h
      · cases h
      · obtain ⟨_, hdims, h⟩ := bind_eq_ok_iff.1 h
        cases i with
        | zero =>
          cases hm
          cases hs
          exact not_misfit_of_checkDims hdims dim fs size
        | succ i => exact ih h hm hs

/-- No dimension of a rule that verifies is of another size than its factors make up. -/
theorem not_misfit_of_verify {sig : Signature} (h : r.verify sig = .ok ()) {t : TensorRef}
    {mapping : Mapping} {shape : Shape} (hm : r.mapping? t = some mapping)
    (hs : (sig.shapes t.side)[t.index]? = some shape) (dim : Nat) (fs : List Nat) (size : Nat) :
    ¬ r.Misfit mapping.dims shape dim fs size := by
  have hside := checkSide_of_verify h t.side
  rw [checkSide] at hside
  split at hside
  · cases hside
  · exact not_misfit_of_checkTensors hside hm hs dim fs size

end Rule
end MeshSharding
