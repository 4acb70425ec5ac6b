import MeshSharding.Proofs.Pipeline.Mismatch
import MeshSharding.Proofs.Pipeline.Preservation
import MeshSharding.Proofs.Resharding.Validity

/-! What insertion leaves behind. Every value it adds has a valid sharding, and every operand is the
one that was there, where no collective is needed, or a value with the sharding that is expected. -/
namespace MeshSharding

open Program

namespace Program

/-- The sharding of the value, if it has one, is over a mesh of the program, valid for the shape and
without priorities. -/
def FitsValue (p : Program) (v : Value) : Prop :=
  ∀ s, v.sharding = some s → ∃ m, p.mesh s.meshName = .ok m ∧ s.Fits m v.shape.length

def Fits (p : Program) : Prop := ∀ v ∈ p.values, p.FitsValue v

variable {p : Program}

theorem fits_iff : p.Fits ↔ (∀ v ∈ p.values, Import.checkValue p v = .ok ()) ∧
    ∀ v s, p.sharding? v = some s → s.Unranked := by
  constructor
  · intro h
    refine ⟨fun v hv => Import.checkValue_eq_ok_iff.2 fun s hs => ?_, fun v s hs => ?_⟩
    · obtain ⟨m, hm, hfits⟩ := h v hv s hs
      exact ⟨m, hm, TensorSharding.validate_eq_ok_iff.2 ⟨hfits.rank, hfits.valid⟩⟩
    · obtain ⟨x, hx, hs⟩ := Option.bind_eq_some_iff.1 hs
      obtain ⟨_, -, hfits⟩ := h x (List.mem_of_getElem? hx) s hs
      exact hfits.unranked
  · rintro ⟨hvalues, hunranked⟩ v hv s hs
    obtain ⟨m, hm, hvalid⟩ := Import.checkValue_eq_ok_iff.1 (hvalues v hv) s hs
    obtain ⟨hrank, hvalid⟩ := TensorSharding.validate_eq_ok_iff.1 hvalid
    obtain ⟨i, hi⟩ := List.getElem?_of_mem hv
    exact ⟨m, hm, hrank, hvalid, hunranked i s (by rw [sharding?, hi]; exact hs)⟩

theorem Fits.sharding? (h : p.Fits) {v : Nat} {s : TensorSharding} (hs : p.sharding? v = some s) :
    ∃ m, p.mesh s.meshName = .ok m ∧ s.Fits m (p.shapeOf v).length := by
  obtain ⟨x, hx, hs⟩ := Option.bind_eq_some_iff.1 hs
  rw [shapeOf, hx]
  exact h x (List.mem_of_getElem? hx) s hs

/-- A valid sharding of some rank, over a mesh of the program and without priorities. -/
def Admits (p : Program) (s : TensorSharding) : Prop :=
  ∃ m n, p.mesh s.meshName = .ok m ∧ s.Fits m n

end Program

namespace Export

variable {p q : Program} {options : Options} {m : Mesh} {shape : Shape}
  {expected s : TensorSharding} {n : Nat}

section expectation

variable {o : Operation} {r : Rule} {operand value reference : Nat}

theorem priority_expectedDims {om rm : Mapping} {x y : TensorFactors} {dim : Nat}
    {ds dims : List DimSharding} (h : expectedDims m r om rm x y dim ds = .ok dims) :
    ∀ d ∈ dims, d.priority = none := by
  induction ds generalizing dim dims with
  | nil => cases h; nofun
  | cons d ds ih =>
    obtain ⟨_, -, h⟩ := bind_eq_ok_iff.1 h
    obtain ⟨rest, hrest, h⟩ := bind_eq_ok_iff.1 h
    cases h
    exact List.forall_mem_cons.2 ⟨rfl, ih hrest⟩

theorem admits_expectation
    (h : expectation p o r operand value = .ok (some (expected, reference))) :
    p.Admits expected := by
  obtain ⟨c, dims, hdims, rfl, hvalidate⟩ := exists_comparison h
  obtain ⟨hrank, hvalid⟩ := TensorSharding.validate_eq_ok_iff.1 hvalidate
  exact ⟨c.mesh, _, c.mesh_eq, hrank, hvalid, priority_expectedDims hdims⟩

end expectation

section chains

theorem fits_pushValue (hp : p.Fits) {v : Value} (hv : p.FitsValue v) :
    (p.pushValue v).1.Fits :=
  List.forall_mem_append.2 ⟨hp, List.forall_mem_singleton.2 hv⟩

/-- The values of a chain have valid shardings, and the last one has the expected one. -/
theorem fits_chain {value last : Nat} {cs : List Collective} {operations : List Operation}
    (h : chain m shape expected p value s cs = .ok (q, operations, last)) (hp : p.Fits)
    (hm : p.mesh s.meshName = .ok m) (hname : expected.meshName = s.meshName)
    (hs : s.Fits m shape.length) (hexpected : expected.Fits m shape.length)
    (hcs : ∀ c ∈ cs, c.Refers m) :
    q.Fits ∧ (cs ≠ [] → ∃ producer, q.values[last]? = some ⟨shape, some expected, producer⟩) := by
  induction cs generalizing p value s operations with
  | nil =>
    cases h
    exact ⟨hp, fun hne => absurd rfl hne⟩
  | cons c rest ih =>
    rw [List.forall_mem_cons] at hcs
    rw [chain] at h
    obtain ⟨applied, happly, h⟩ := bind_eq_ok_iff.1 h
    obtain ⟨⟨q', operations', last'⟩, hchain, h⟩ := bind_eq_ok_iff.1 h
    cases h
    have happlied := Collective.fits_apply hcs.1 hs happly
    have hnext : (if rest.isEmpty then expected else applied).Fits m shape.length ∧
        (if rest.isEmpty then expected else applied).meshName = s.meshName := by
      split
      · exact ⟨hexpected, hname⟩
      · exact ⟨happlied, Collective.meshName_of_apply happly⟩
    have hpush : (p.pushValue ⟨shape, some (if rest.isEmpty then expected else applied),
        none⟩).1.Fits := fits_pushValue hp fun s' hs' => by
      cases hs'
      exact ⟨m, hnext.2 ▸ hm, hnext.1⟩
    obtain ⟨hfits, hlast⟩ := ih hchain hpush (hnext.2.symm ▸ hm) (hname.trans hnext.2.symm)
      hnext.1 hcs.2
    refine ⟨hfits, fun _ => ?_⟩
    cases rest with
    | nil =>
      cases hchain
      exact ⟨none, by simp⟩
    | cons c' rest => exact hlast (by simp)

/-- What is inserted for an operand leads to a value with the expected sharding. -/
theorem fits_reshard {source value : Nat} {cs : List Collective} {operations : List Operation}
    (hp : p.Fits) (hexpected : p.Admits expected) (hs : p.sharding? source = some s)
    (hm : p.mesh expected.meshName = .ok m) (hcs : Resharding.reshard s expected m = .ok cs)
    (hne : cs ≠ [])
    (h : chain m (p.shapeOf source) expected p source s cs = .ok (q, operations, value)) :
    q.Fits ∧ ∃ producer,
      q.values[value]? = some ⟨p.shapeOf source, some expected, producer⟩ := by
  obtain ⟨hname, hrank, -⟩ := Resharding.reshard_eq_ok hcs
  obtain ⟨m₁, hm₁, hsfits⟩ := hp.sharding? hs
  obtain ⟨m₂, k, hm₂, hfits⟩ := hexpected
  cases hm.symm.trans hm₂
  cases (hname ▸ hm).symm.trans hm₁
  have hfits : expected.Fits m (p.shapeOf source).length :=
    ⟨hrank.symm.trans hsfits.rank, hfits.valid, hfits.unranked⟩
  obtain ⟨hq, hlast⟩ := fits_chain h hp (hname ▸ hm) hname.symm hsfits hfits
    (Resharding.refers_reshard hsfits.valid hfits.valid hfits.unranked hcs)
  exact ⟨hq, hlast hne⟩

/-- The insertion leads from the operand of the mismatch to a value of `q` with the expected
sharding. -/
structure Delivers (p q : Program) (x : Mismatch) (i : Insertion) : Prop where
  operation : i.operation = x.operation
  operand : i.operand = x.operand
  source : ∃ o, p.operations[x.operation]? = some o ∧ o.operands[x.operand]? = some i.source
  needed : ¬ Skips p i.source x.expected
  shape : q.shapeOf i.value = p.shapeOf i.source
  sharding : q.sharding? i.value = some x.expected

/-- Nothing is inserted for the operand of the mismatch. -/
def Passes (p : Program) (x : Mismatch) : Prop :=
  ∃ o source, p.operations[x.operation]? = some o ∧ o.operands[x.operand]? = some source ∧
    ((p.sharding? source).isSome → Skips p source x.expected)

/-- Mismatches are passed over, or insertions deliver what is expected. -/
structure Resolves (p q : Program) (mismatches : List Mismatch) (all : List Insertion) : Prop where
  fits : q.Fits
  delivers : ∀ i ∈ all, ∃ x ∈ mismatches, Delivers p q x i
  covers : ∀ x ∈ mismatches,
    (∃ i ∈ all, i.operation = x.operation ∧ i.operand = x.operand) ∨ Passes p x

theorem skips_append {v : Nat} (hv : v < p.values.length) (extra : List Value) :
    Skips { p with values := p.values ++ extra } v expected ↔ Skips p v expected := by
  rw [Skips, sharding?_append_of_lt hv, Skips]
  rfl

variable {x : Mismatch} {rest : List Mismatch} {i : Insertion} {more : List Insertion}

theorem Resolves.pass (h : Resolves p q rest more) (hx : Passes p x) :
    Resolves p q (x :: rest) more where
  fits := h.fits
  delivers i hi :=
    have ⟨y, hy, hdelivers⟩ := h.delivers i hi
    ⟨y, List.mem_cons_of_mem _ hy, hdelivers⟩
  covers := List.forall_mem_cons.2 ⟨.inr hx, h.covers⟩

/-- The operands of the program are not among the values that the first insertion adds. -/
theorem Resolves.insert {extra : List Value}
    (hoperands : ∀ o ∈ p.operations, ∀ a ∈ o.operands, a < p.values.length)
    (h : Resolves { p with values := p.values ++ extra } q rest more) (hi : Delivers p q x i) :
    Resolves p q (x :: rest) (i :: more) where
  fits := h.fits
  delivers := by
    refine List.forall_mem_cons.2 ⟨⟨x, List.mem_cons_self, hi⟩, fun j hj => ?_⟩
    obtain ⟨y, hy, hdelivers⟩ := h.delivers j hj
    obtain ⟨o, ho, hsource⟩ := hdelivers.source
    have hlt := hoperands o (List.mem_of_getElem? ho) _ (List.mem_of_getElem? hsource)
    exact ⟨y, List.mem_cons_of_mem _ hy, hdelivers.operation, hdelivers.operand, ⟨o, ho, hsource⟩,
      fun hskips => hdelivers.needed ((skips_append hlt extra).2 hskips),
      hdelivers.shape.trans (shapeOf_append_of_lt hlt extra), hdelivers.sharding⟩
  covers := by
    refine List.forall_mem_cons.2
      ⟨.inl ⟨i, List.mem_cons_self, hi.operation, hi.operand⟩, fun y hy => ?_⟩
    rcases h.covers y hy with ⟨j, hj, hplace⟩ | ⟨o, source, ho, hsource, hskips⟩
    · exact .inl ⟨j, List.mem_cons_of_mem _ hj, hplace⟩
    · have hlt := hoperands o (List.mem_of_getElem? ho) _ (List.mem_of_getElem? hsource)
      refine .inr ⟨o, source, ho, hsource, fun hsome => (skips_append hlt extra).1 (hskips ?_)⟩
      rwa [sharding?_append_of_lt hlt]

theorem resolves_insertions {mismatches : List Mismatch} {all : List Insertion}
    (h : insertions p mismatches = .ok (q, all)) (hp : p.Fits)
    (hoperands : ∀ o ∈ p.operations, ∀ a ∈ o.operands, a < p.values.length)
    (hexpected : ∀ x ∈ mismatches, p.Admits x.expected) : Resolves p q mismatches all := by
  induction mismatches generalizing p all with
  | nil =>
    cases h
    exact ⟨hp, nofun, nofun⟩
  | cons x rest ih =>
    rw [List.forall_mem_cons] at hexpected
    obtain ⟨h, hpasses⟩ | ⟨o, source, s, m, cs, _, p', operations, value, more, ho, hsource, hs,
      rfl, hm, hcs, hne, hchain, hmore, rfl⟩ := insertions_cons_eq_ok h
    · exact (ih h hp hoperands hexpected.2).pass hpasses
    · have hlt := hoperands o (List.mem_of_getElem? ho) source (List.mem_of_getElem? hsource)
      obtain ⟨hfits, producer, hlast⟩ := fits_reshard hp hexpected.1 hs hm hcs hne hchain
      obtain ⟨_, extra, rfl, -⟩ := chain_spec hchain hlt (Nat.zero_le _) id
      have hlater : ∀ o ∈ p.operations, ∀ a ∈ o.operands, a < (p.values ++ extra).length :=
        fun o ho a ha => (hoperands o ho a ha).trans_le (by simp)
      have hrest := ih hmore hfits hlater hexpected.2
      obtain ⟨_, extra', rfl, -⟩ := insertions_spec hmore (Nat.le_refl _) hlater id
      have hget : (p.values ++ extra ++ extra')[value]?
          = some ⟨p.shapeOf source, some x.expected, producer⟩ :=
        (List.getElem?_append_left (List.getElem?_eq_some_iff.1 hlast).1).trans hlast
      refine hrest.insert hoperands ⟨rfl, rfl, ⟨o, ho, hsource⟩, ?_, ?_, ?_⟩
      · rintro ⟨s', m', hs', hm', hnil⟩
        cases hs.symm.trans hs'
        cases hm.symm.trans hm'
        cases hcs.symm.trans hnil
        exact hne rfl
      · dsimp only
        rw [shapeOf, hget]
        rfl
      · dsimp only
        rw [sharding?, hget]
        rfl

end chains

section splice

variable {all : List Insertion} {o : Operation}

/-- Setting operands changes nothing else. -/
theorem foldl_setOperand_eq (o : Operation) (here : List Insertion) :
    ∃ operands, here.foldl setOperand o = { o with operands := operands } ∧
      operands.length = o.operands.length := by
  induction here generalizing o with
  | nil => exact ⟨o.operands, rfl, rfl⟩
  | cons i rest ih =>
    obtain ⟨operands, heq, hlength⟩ := ih (setOperand o i)
    refine ⟨operands, heq, hlength.trans ?_⟩
    rw [setOperand, List.length_set]

/-- An operand is set by one of the insertions, or by none of them. -/
theorem operands_foldl_setOperand (here : List Insertion) {j v : Nat}
    (hv : o.operands[j]? = some v) :
    (∃ i ∈ here, i.operand = j ∧ (here.foldl setOperand o).operands[j]? = some i.value) ∨
      (∀ i ∈ here, i.operand ≠ j) ∧ (here.foldl setOperand o).operands[j]? = some v := by
  induction here generalizing o v with
  | nil => exact .inr ⟨nofun, hv⟩
  | cons i rest ih =>
    by_cases hi : i.operand = j
    · have hset : (setOperand o i).operands[j]? = some i.value := by
        rw [setOperand, hi, List.getElem?_set_self (List.getElem?_eq_some_iff.1 hv).1]
      rcases ih hset with ⟨i', hi', hrest⟩ | ⟨-, hlast⟩
      · exact .inl ⟨i', List.mem_cons_of_mem _ hi', hrest⟩
      · exact .inl ⟨i, List.mem_cons_self, hi, hlast⟩
    · have hset : (setOperand o i).operands[j]? = some v := by
        rw [setOperand, List.getElem?_set_ne hi, hv]
      rcases ih hset with ⟨i', hi', hrest⟩ | ⟨hnone, hlast⟩
      · exact .inl ⟨i', List.mem_cons_of_mem _ hi', hrest⟩
      · exact .inr ⟨List.forall_mem_cons.2 ⟨hi, hnone⟩, hlast⟩

theorem mem_splice {rest : List Operation} {start k : Nat} {x : Operation}
    (hx : x ∈ (splice all start k rest).1) :
    (∃ i ∈ all, x ∈ i.operations) ∨ ∃ j o, rest[j]? = some o ∧
      x = (all.filter fun i => i.operation = k + j).foldl setOperand o := by
  induction rest generalizing start k with
  | nil => cases hx
  | cons o rest ih =>
    rw [splice] at hx
    rcases List.mem_append.1 hx with hx | hx
    · obtain ⟨i, hi, hxi⟩ := List.mem_flatMap.1 hx
      exact .inl ⟨i, (List.mem_filter.1 hi).1, hxi⟩
    · rcases List.mem_cons.1 hx with rfl | hx
      · exact .inr ⟨0, o, rfl, rfl⟩
      · refine (ih hx).imp_right ?_
        rintro ⟨j, o', ho', rfl⟩
        refine ⟨j + 1, o', ho', ?_⟩
        rw [Nat.add_assoc, Nat.add_comm 1]

end splice

section reshards

variable {reshards : List InsertedReshard}

/-- The value stands in the resharded program `q` for an operand of the program `p`: it is the
operand itself, or has the sharding that is expected of it. -/
def Stands (p q : Program) (o : Operation) (operand value value' : Nat) : Prop :=
  (value' = value ∧ ∀ r, o.rule = some r → Rests p o r operand value) ∨
    ∃ r expected reference, o.rule = some r ∧
      expectation p o r operand value = .ok (some (expected, reference)) ∧
      ¬ Skips p value expected ∧ q.shapeOf value' = p.shapeOf value ∧
      q.sharding? value' = some expected

/-- The operation `x` is `o` with other operands, each of which stands for the one that was
there. -/
def Reuses (p q : Program) (o x : Operation) : Prop :=
  ∃ operands, x = { o with operands := operands } ∧ operands.length = o.operands.length ∧
    ∀ j v, o.operands[j]? = some v → ∃ v', operands[j]? = some v' ∧ Stands p q o j v v'

/-- The program `q` has all that `p` has, with collectives in front of some of the operations. -/
structure Reshards (p q : Program) : Prop where
  meshes : q.meshes = p.meshes
  groups : q.groups = p.groups
  length : p.values.length ≤ q.values.length
  shapes : ∀ v < p.values.length, q.shapeOf v = p.shapeOf v
  shardings : ∀ v < p.values.length, q.sharding? v = p.sharding? v
  fits : q.Fits
  produced : q.withOperations q.operations = q
  operations : ∀ x ∈ q.operations, (∃ c a b, x = collectiveOperation c a b) ∨
    ∃ o ∈ p.operations, Reuses p q o x

/-- What an operation of the program expects of its operand. -/
def Expects (p : Program) (o : Operation) (r : Rule) (operand value : Nat)
    (expected : TensorSharding) (reference : Nat) : Prop :=
  o ∈ p.operations ∧ o.rule = some r ∧ o.operands[operand]? = some value ∧
    expectation p o r operand value = .ok (some (expected, reference))

theorem withOperations_withOperations (p : Program) (operations operations' : List Operation) :
    (p.withOperations operations).withOperations operations' = p.withOperations operations' := by
  rw [withOperations, withOperations, withOperations, List.mapIdx_mapIdx]
  rfl

theorem shapeOf_withOperations (p : Program) (operations : List Operation) (v : Nat) :
    (p.withOperations operations).shapeOf v = p.shapeOf v := by
  rw [shapeOf, (withOperations_values p operations v).1, shapeOf]

theorem fits_withOperations (h : p.Fits) (operations : List Operation) :
    (p.withOperations operations).Fits := by
  intro v hv
  obtain ⟨i, hi, rfl⟩ := List.mem_mapIdx.1 hv
  exact fun s hs => h p.values[i] (List.getElem_mem hi) s hs

theorem Resolves.withOperations {mismatches : List Mismatch} {all : List Insertion}
    (h : Resolves p q mismatches all) (operations : List Operation) :
    Resolves p (q.withOperations operations) mismatches all where
  fits := fits_withOperations h.fits operations
  delivers i hi :=
    have ⟨x, hx, hdelivers⟩ := h.delivers i hi
    ⟨x, hx, hdelivers.operation, hdelivers.operand, hdelivers.source, hdelivers.needed,
      (shapeOf_withOperations ..).trans hdelivers.shape,
      (withOperations_values ..).2.trans hdelivers.sharding⟩
  covers := h.covers

section reuses

variable {x : Mismatch} {i : Insertion} {o : Operation} {r : Rule} {v k : Nat}
  {mismatches : List Mismatch} {all : List Insertion}

/-- What is delivered stands for the operand of the operation that has the mismatch. -/
theorem Delivers.stands (h : Delivers p q x i) (hx : Arises p x)
    (ho : p.operations[i.operation]? = some o) (hv : o.operands[i.operand]? = some v) :
    Stands p q o i.operand v i.value := by
  obtain ⟨o₁, r, v₁, reference, ho₁, hr, hv₁, hexpectation⟩ := hx
  obtain ⟨o₂, ho₂, hv₂⟩ := h.source
  rw [← h.operation] at ho₁ ho₂
  rw [← h.operand] at hv₁ hv₂ hexpectation
  cases ho.symm.trans ho₁
  cases ho.symm.trans ho₂
  cases hv.symm.trans hv₁
  have hsource : v = i.source := Option.some.inj (hv.symm.trans hv₂)
  exact .inr ⟨r, x.expected, reference, hr, hexpectation, hsource ▸ h.needed, hsource ▸ h.shape,
    h.sharding⟩

/-- A mismatch that is passed over is of an operand that rests. -/
theorem Passes.rests (h : Passes p x) (hx : Arises p x) (ho : p.operations[x.operation]? = some o)
    (hr : o.rule = some r) (hv : o.operands[x.operand]? = some v) : Rests p o r x.operand v := by
  obtain ⟨o₁, r₁, v₁, reference, ho₁, hr₁, hv₁, hexpectation⟩ := hx
  obtain ⟨o₂, v₂, ho₂, hv₂, hskips⟩ := h
  cases ho.symm.trans ho₁
  cases ho.symm.trans ho₂
  cases hr.symm.trans hr₁
  cases hv.symm.trans hv₁
  cases hv.symm.trans hv₂
  obtain ⟨c, -⟩ := exists_comparison hexpectation
  exact .inr ⟨x.expected, reference, hexpectation, hskips (by rw [c.source_eq]; rfl)⟩

/-- Setting the operands that insertions are for reuses the operation. -/
theorem Resolves.reuses (h : Resolves p q mismatches all)
    (hinserts : options.insertsCollectives = true)
    (hmismatches : mismatchesFrom options p 0 p.operations = .ok mismatches)
    (ho : p.operations[k]? = some o) :
    Reuses p q o ((all.filter fun i => i.operation = k).foldl setOperand o) := by
  obtain ⟨operands, heq, hlength⟩ := foldl_setOperand_eq o (all.filter fun i => i.operation = k)
  refine ⟨operands, heq, hlength, fun j v hv => ?_⟩
  rcases operands_foldl_setOperand (all.filter fun i => i.operation = k) hv with
    ⟨i, hi, rfl, hset⟩ | ⟨hnone, hset⟩
  · rw [heq] at hset
    obtain ⟨hmem, hoperation⟩ := List.mem_filter.1 hi
    obtain rfl := of_decide_eq_true hoperation
    obtain ⟨x, hx, hdelivers⟩ := h.delivers i hmem
    exact ⟨i.value, hset, hdelivers.stands (arises_of_mem hmismatches hx) ho hv⟩
  · rw [heq] at hset
    refine ⟨v, hset, .inl ⟨rfl, fun r hr => ?_⟩⟩
    rcases exists_mem_of_expectation hinserts hmismatches ho hr hv with hexpectation |
      ⟨x, hx, rfl, rfl⟩
    · exact .inl hexpectation
    · rcases h.covers x hx with ⟨i, hi, hoperation, hoperand⟩ | hpasses
      · exact absurd hoperand (hnone i (List.mem_filter.2 ⟨hi, decide_eq_true hoperation⟩))
      · exact hpasses.rests (arises_of_mem hmismatches hx) ho hr hv

end reuses

/-- Between the values of a program and those of the one it is inserted into. -/
theorem reshards_of_insertions {mismatches : List Mismatch} {all : List Insertion}
    (hinserts : options.insertsCollectives = true)
    (hmismatches : mismatchesFrom options p 0 p.operations = .ok mismatches)
    (hp : p.Fits) (hoperands : ∀ o ∈ p.operations, ∀ a ∈ o.operands, a < p.values.length)
    (h : insertions p mismatches = .ok (q, all)) :
    Reshards p (q.withOperations (splice all 0 0 q.operations).1) := by
  have hresolves := resolves_insertions h hp hoperands fun x hx => by
    obtain ⟨_, _, _, _, -, -, -, hexpectation⟩ := arises_of_mem hmismatches hx
    exact admits_expectation hexpectation
  obtain ⟨_, extra, rfl, -, hchains⟩ := insertions_spec h (Nat.le_refl _) hoperands id
  have hresolves := hresolves.withOperations (splice all 0 0 p.operations).1
  refine ⟨rfl, rfl, by simp [withOperations],
    fun v hv => (shapeOf_withOperations ..).trans (shapeOf_append_of_lt hv extra),
    fun v hv => (withOperations_values ..).2.trans (sharding?_append_of_lt hv extra),
    hresolves.fits, withOperations_withOperations .., fun x hx => ?_⟩
  rcases mem_splice hx with ⟨i, hi, hxi⟩ | ⟨k, o, ho, rfl⟩
  · obtain ⟨c, a, b, heq, -⟩ := (hchains i hi).copies x hxi
    exact .inl ⟨c, a, b, heq⟩
  · rw [Nat.zero_add]
    exact .inr ⟨o, List.mem_of_getElem? ho, hresolves.reuses hinserts hmismatches ho⟩

/-- With all expectations explicit, every operand rests or is resharded. -/
theorem reshards_insertReshards (hp : p.Fits)
    (hoperands : ∀ o ∈ p.operations, ∀ a ∈ o.operands, a < p.values.length)
    (hproduced : p.withOperations p.operations = p)
    (htotal : ∀ o ∈ p.operations, ∀ r j v, o.rule = some r → o.operands[j]? = some v →
      ∃ x, expectation p o r j v = .ok x)
    (hinserts : ∀ o r j v expected reference, Expects p o r j v expected reference →
      options.insertsCollectives = true)
    (h : insertReshards options p = .ok (q, reshards)) : Reshards p q := by
  cases hoption : options.insertsCollectives with
  | true =>
    rw [insertReshards] at h
    obtain ⟨mismatches, hmismatches, h⟩ := bind_eq_ok_iff.1 h
    cases mismatches with
    | nil =>
      cases h
      have hself := reshards_of_insertions hoption hmismatches hp hoperands rfl
      rwa [splice_nil, hproduced] at hself
    | cons x rest =>
      obtain ⟨⟨q', all⟩, hall, h⟩ := bind_eq_ok_iff.1 h
      cases h
      have hself := reshards_of_insertions hoption hmismatches hp hoperands hall
      obtain ⟨_, _, rfl, -, -⟩ := insertions_spec hall (Nat.le_refl _) hoperands id
      exact hself
  | false =>
    have hnone : ∀ o ∈ p.operations, ∀ r j v, o.rule = some r → o.operands[j]? = some v →
        expectation p o r j v = .ok none := by
      intro o ho r j v hr hv
      obtain ⟨_ | ⟨expected, reference⟩, he⟩ := htotal o ho r j v hr hv
      · exact he
      · have := hinserts o r j v expected reference ⟨ho, hr, hv, he⟩
        rw [hoption] at this
        cases this
    cases h.symm.trans (insertReshards_eq_self hproduced fun i o r ho hr => quiet_of_rests
      fun j v hv => .inl (hnone o (List.mem_of_getElem? ho) r j v hr hv))
    exact ⟨rfl, rfl, Nat.le_refl _, fun _ _ => rfl, fun _ _ => rfl, hp, hproduced,
      fun x hx => .inr ⟨x, hx, x.operands, rfl, rfl, fun j v hv => ⟨v, hv, .inl ⟨rfl, fun r hr =>
        .inl (hnone x hx r j v hr hv)⟩⟩⟩⟩

end reshards

end Export
end MeshSharding
