import MeshSharding.Pipeline.Export
import MeshSharding.Proofs.Program.Erasure

/-! Export keeps the program. The operations it inserts copy an operand of the operation
behind them, so that erasing them gives back the operations that were there. -/
namespace MeshSharding
namespace Export

open Program

variable {n : Nat} {root : Nat → Nat}

/-- Export keeps what resharding gives and dropping rules and closing shardings keep. -/
theorem exportProgram_keeps {motive : Program → Prop} {options : Options} {p q : Program}
    {reshards : List InsertedReshard} (h : exportProgram options p = .ok (q, reshards))
    (hinsert : ∀ r, insertReshards options (withoutGroups p) = .ok (r, reshards) → motive r)
    (hrules : ∀ r, motive r → motive (dropRules r))
    (hclose : ∀ r, motive r → motive (closeShardings r)) : motive q := by
  obtain ⟨⟨r, reshards'⟩, hr, h⟩ := bind_eq_ok_iff.1 h
  cases h
  have hdropped : motive (if options.keepRules then r else dropRules r) := by
    split
    · exact hinsert r hr
    · exact hrules r (hinsert r hr)
  split
  · exact hclose _ hdropped
  · exact hdropped

/-- The chain of an insertion copies the operand that it replaces. -/
structure Sound (n bound : Nat) (root : Nat → Nat) (operations : List Operation)
    (i : Insertion) : Prop where
  source : ∃ o, operations[i.operation]? = some o ∧ o.operands[i.operand]? = some i.source
  copies : ∀ o ∈ i.operations, ∃ c a b, o = collectiveOperation c a b ∧
    Copies n bound root o a b
  ordered : UsesEarlier [i.source] i.operations
  reaches : i.value ∈ i.source :: i.operations.flatMap (·.results)
  same : root i.value = root i.source

theorem chain_spec {m : Mesh} {shape : Shape} {expected s : TensorSharding} {p q : Program}
    {value last : Nat} {cs : List Collective} {operations : List Operation}
    (h : chain m shape expected p value s cs = .ok (q, operations, last))
    (hv : value < p.values.length) (hn : n ≤ p.values.length) (root : Nat → Nat) :
    ∃ root' extra, q = { p with values := p.values ++ extra } ∧
      (∀ v < p.values.length, root' v = root v) ∧
      (∀ o ∈ operations, ∃ c a b, o = collectiveOperation c a b ∧
        Copies n q.values.length root' o a b) ∧
      UsesEarlier [value] operations ∧
      last ∈ value :: operations.flatMap (·.results) ∧ last < q.values.length ∧
      root' last = root value := by
  induction cs generalizing p value s root operations with
  | nil =>
    cases h
    exact ⟨root, [], by simp, fun _ _ => rfl, by simp, trivial, by simp, hv, rfl⟩
  | cons c rest ih =>
    rw [chain] at h
    obtain ⟨applied, _, h⟩ := bind_eq_ok_iff.1 h
    obtain ⟨⟨q', operations', last'⟩, hchain, h⟩ := bind_eq_ok_iff.1 h
    cases h
    let now : Nat → Nat := fun v => if v = p.values.length then root value else root v
    obtain ⟨root', extra, hq, hroot, hcopies, hordered, hlast, hlt, hsame⟩ :=
      ih hchain (by simp) (by simp only [List.length_append]; omega) now
    have hlen : p.values.length + 1 ≤ q.values.length := by
      rw [hq]
      simp only [List.length_append, List.length_singleton]
      omega
    have hbelow : ∀ v < p.values.length, root' v = root v := by
      intro v hlt
      rw [hroot v (by simp only [List.length_append]; omega)]
      simp [now, Nat.ne_of_lt hlt]
    have hnew : root' p.values.length = root value := by
      rw [hroot _ (by simp)]
      simp [now]
    refine ⟨root', ⟨shape, some (if rest.isEmpty then expected else applied), none⟩ :: extra,
      by rw [hq]; simp, hbelow, ?_, ?_, ?_, hlt, by rw [hsame]; simp [now]⟩
    · intro o ho
      rcases List.mem_cons.1 ho with rfl | ho
      · exact ⟨c, value, p.values.length, rfl, rfl, rfl, hv, hn, by omega,
          by rw [hnew, hbelow value hv]⟩
      · exact hcopies o ho
    · exact ⟨by simp [collectiveOperation], hordered.mono (by simp [collectiveOperation])⟩
    · exact List.mem_cons_of_mem _ hlast

theorem Sound.mono {bound bound' : Nat} {root' : Nat → Nat} {operations : List Operation}
    {i : Insertion} (h : Sound n bound root operations i) (hb : bound ≤ bound')
    (hsource : i.source < bound) (hvalue : i.value < bound)
    (hroot : ∀ v < bound, root' v = root v) : Sound n bound' root' operations i where
  source := h.source
  copies o ho :=
    have ⟨c, a, b, heq, hcopy⟩ := h.copies o ho
    ⟨c, a, b, heq, hcopy.mono hb hroot⟩
  ordered := h.ordered
  reaches := h.reaches
  same := by rw [hroot _ hvalue, hroot _ hsource, h.same]

theorem valueAt_operand_eq_ok_iff {o : Operation} {k a : Nat} :
    o.valueAt ⟨.operand, k⟩ = .ok a ↔ o.operands[k]? = some a := by
  simp only [Operation.valueAt, Operation.values]
  cases o.operands[k]? <;> simp

/-- No collective is needed to lead from the sharding of the value to the expected one. -/
def Skips (p : Program) (value : Nat) (expected : TensorSharding) : Prop :=
  ∃ s m, p.sharding? value = some s ∧ p.mesh expected.meshName = .ok m ∧
    Resharding.reshard s expected m = .ok []

/-- A mismatch is passed over if no collective is needed, or a chain leads from the operand to what
is expected. -/
theorem insertions_cons_eq_ok {p q : Program} {x : Mismatch} {rest : List Mismatch}
    {all : List Insertion} (h : insertions p (x :: rest) = .ok (q, all)) :
    (insertions p rest = .ok (q, all) ∧ ∃ o source,
        p.operations[x.operation]? = some o ∧ o.operands[x.operand]? = some source ∧
        ((p.sharding? source).isSome → Skips p source x.expected)) ∨
      ∃ o source s m cs shape p' operations value more,
        p.operations[x.operation]? = some o ∧ o.operands[x.operand]? = some source ∧
        p.sharding? source = some s ∧ p.shapeOf source = shape ∧
        p.mesh x.expected.meshName = .ok m ∧
        Resharding.reshard s x.expected m = .ok cs ∧ cs ≠ [] ∧
        chain m shape x.expected p source s cs = .ok (p', operations, value) ∧
        insertions p' rest = .ok (q, more) ∧
        all = ⟨x.operation, x.operand, source, cs, operations, value⟩ :: more := by
  rw [insertions] at h
  obtain ⟨o, ho, h⟩ := bind_eq_ok_iff.1 h
  obtain ⟨source, hsource, h⟩ := bind_eq_ok_iff.1 h
  obtain ⟨v, hv, h⟩ := bind_eq_ok_iff.1 h
  have ho := operation_eq_ok_iff.1 ho
  have hsource := valueAt_operand_eq_ok_iff.1 hsource
  have hvalue := value_eq_ok_iff.1 hv
  have hs : p.sharding? source = v.sharding := by rw [sharding?, hvalue]; rfl
  have hshape : p.shapeOf source = v.shape := by rw [shapeOf, hvalue]; rfl
  split at h
  · rename_i hnone
    exact .inl ⟨h, o, source, ho, hsource, fun hsome => by
      rw [hs, hnone] at hsome
      cases hsome⟩
  · rename_i s hsharding
    rw [hsharding] at hs
    obtain ⟨m, hm, h⟩ := bind_eq_ok_iff.1 h
    obtain ⟨cs, hcs, h⟩ := bind_eq_ok_iff.1 h
    split at h
    · rename_i hnil
      rw [List.isEmpty_iff.1 hnil] at hcs
      exact .inl ⟨h, o, source, ho, hsource, fun _ => ⟨s, m, hs, hm, hcs⟩⟩
    · rename_i hne
      obtain ⟨⟨p', operations, value⟩, hchain, h⟩ := bind_eq_ok_iff.1 h
      obtain ⟨⟨q', more⟩, hmore, h⟩ := bind_eq_ok_iff.1 h
      cases h
      exact .inr ⟨o, source, s, m, cs, v.shape, p', operations, value, more, ho, hsource, hs,
        hshape, hm, hcs, by simpa using hne, hchain, hmore, rfl⟩

/-- Insertions only add values to the program. -/
theorem insertions_spec {p q : Program} {mismatches : List Mismatch} {all : List Insertion}
    (h : insertions p mismatches = .ok (q, all)) (hn : n ≤ p.values.length)
    (hops : ∀ o ∈ p.operations, ∀ a ∈ o.operands, a < n) (root : Nat → Nat) :
    ∃ root' extra, q = { p with values := p.values ++ extra } ∧
      (∀ v < p.values.length, root' v = root v) ∧
      ∀ i ∈ all, Sound n q.values.length root' p.operations i := by
  induction mismatches generalizing p root all with
  | nil =>
    cases h
    exact ⟨root, [], by simp, fun _ _ => rfl, by simp⟩
  | cons x rest ih =>
    obtain ⟨h, -⟩ | ⟨o, source, s, m, cs, shape, p', operations, value, more, ho, hsource, -, -, -,
      -, -, hchain, hmore, rfl⟩ := insertions_cons_eq_ok h
    · exact ih h hn hops root
    · have hlt : source < p.values.length := Nat.lt_of_lt_of_le
        (hops o (List.mem_of_getElem? ho) source (List.mem_of_getElem? hsource)) hn
      obtain ⟨root₁, extra₁, rfl, hroot₁, hcopies, hordered, hreaches, hvalue, hsame⟩ :=
        chain_spec hchain hlt hn root
      have hle : p.values.length ≤ (p.values ++ extra₁).length := by simp
      obtain ⟨root₂, extra₂, rfl, hroot₂, hall⟩ :=
        ih hmore (Nat.le_trans hn hle) hops root₁
      refine ⟨root₂, extra₁ ++ extra₂, by simp, fun v hv => ?_, fun i hi => ?_⟩
      · rw [hroot₂ v (Nat.lt_of_lt_of_le hv hle), hroot₁ v hv]
      · rcases List.mem_cons.1 hi with rfl | hi
        · have hsound : Sound n (p.values ++ extra₁).length root₁ p.operations
              ⟨x.operation, x.operand, source, cs, operations, value⟩ :=
            ⟨⟨o, ho, hsource⟩, hcopies, hordered, hreaches, by rw [hsame, hroot₁ source hlt]⟩
          exact hsound.mono (by simp) (Nat.lt_of_lt_of_le hlt hle) hvalue hroot₂
        · exact hall i hi

section splice

variable {bound : Nat} {all : List Insertion} {operations : List Operation} {o : Operation}

theorem setOperand_results (o : Operation) (here : List Insertion) :
    (here.foldl setOperand o).results = o.results := by
  induction here generalizing o with
  | nil => rfl
  | cons i rest ih => rw [List.foldl_cons, ih, setOperand]

theorem renamed_setOperand {o' : Operation} {i : Insertion} (h : renamed root o' = o)
    (hsource : o.operands[i.operand]? = some i.source) (hsame : root i.value = i.source) :
    renamed root (setOperand o' i) = o := by
  obtain ⟨hlt, hget⟩ := List.getElem?_eq_some_iff.1 hsource
  have hset : o.operands.set i.operand i.source = o.operands := by
    rw [← hget, List.set_getElem_self]
  have hoperands : o'.operands.map root = o.operands := congrArg Operation.operands h
  have hmap : (o'.operands.set i.operand i.value).map root = o'.operands.map root := by
    rw [List.map_set, hsame, hoperands, hset]
  rw [renamed, setOperand, ← h, renamed]
  simp only [hmap]

/-- Operands are replaced by copies of them. -/
theorem renamed_foldl_setOperand {here : List Insertion} {o' : Operation}
    (h : renamed root o' = o) (hhere : ∀ i ∈ here,
      o.operands[i.operand]? = some i.source ∧ root i.value = i.source) :
    renamed root (here.foldl setOperand o') = o := by
  induction here generalizing o' with
  | nil => exact h
  | cons i rest ih =>
    have hi := hhere i (by simp)
    exact ih (renamed_setOperand h hi.1 hi.2) fun j hj => hhere j (List.mem_cons_of_mem _ hj)

theorem mem_operands_foldl_setOperand {here : List Insertion} {a : Nat}
    (ha : a ∈ (here.foldl setOperand o).operands) :
    a ∈ o.operands ∨ ∃ i ∈ here, a = i.value := by
  induction here generalizing o with
  | nil => exact .inl ha
  | cons i rest ih =>
    rcases ih ha with ha | ⟨j, hj, rfl⟩
    · rcases List.mem_or_eq_of_mem_set ha with ha | rfl
      · exact .inl ha
      · exact .inr ⟨i, by simp, rfl⟩
    · exact .inr ⟨j, List.mem_cons_of_mem _ hj, rfl⟩

/-- What stands in front of an operation and replaces its operands. -/
theorem sound_at {rest : List Operation} {k : Nat}
    (hall : ∀ i ∈ all, Sound n bound root operations i)
    (hrest : o :: rest = operations.drop k) :
    ∀ i ∈ all.filter fun i => i.operation = k, Sound n bound root operations i ∧
      o.operands[i.operand]? = some i.source := by
  intro i hi
  obtain ⟨hmem, hk⟩ := List.mem_filter.1 hi
  have hsound := hall i hmem
  obtain ⟨o', ho', hsource⟩ := hsound.source
  have hget : operations[k]? = some o := by
    rw [← List.head?_drop, ← hrest, List.head?_cons]
  rw [of_decide_eq_true hk, hget] at ho'
  cases ho'
  exact ⟨hsound, hsource⟩

theorem renamed_here {rest : List Operation} {k : Nat}
    (hall : ∀ i ∈ all, Sound n bound root operations i) (hrest : o :: rest = operations.drop k)
    (hroot : ∀ a ∈ o.operands, root a = a) :
    renamed root ((all.filter fun i => i.operation = k).foldl setOperand o) = o := by
  have hself : renamed root o = o := by
    rw [renamed, List.map_congr_left hroot, List.map_id']
  refine renamed_foldl_setOperand hself fun i hi => ?_
  obtain ⟨hsound, hsource⟩ := sound_at hall hrest i hi
  exact ⟨hsource, by rw [hsound.same, hroot _ (List.mem_of_getElem? hsource)]⟩

theorem drop_succ_of_cons {rest : List Operation} {k : Nat}
    (hrest : o :: rest = operations.drop k) : rest = operations.drop (k + 1) := by
  rw [← List.tail_drop, ← hrest, List.tail_cons]

theorem creates_foldl_setOperand (here : List Insertion) (h : ∀ a ∈ o.results, a < n) :
    creates n (here.foldl setOperand o) = false := by
  rw [creates_eq_false_iff, setOperand_results]
  exact h

/-- Operations that create values were inserted. -/
theorem exists_insertion_of_creates {rest : List Operation}
    (hlt : ∀ o ∈ rest, ∀ a ∈ o.results, a < n) (start k : Nat) :
    ∀ o ∈ (splice all start k rest).1, creates n o = true → ∃ i ∈ all, o ∈ i.operations := by
  induction rest generalizing start k with
  | nil => nofun
  | cons o rest ih =>
    intro x hx hc
    rw [splice] at hx
    rcases List.mem_append.1 hx with hx | hx
    · obtain ⟨i, hi, hxi⟩ := List.mem_flatMap.1 hx
      exact ⟨i, (List.mem_filter.1 hi).1, hxi⟩
    · rcases List.mem_cons.1 hx with rfl | hx
      · rw [creates_foldl_setOperand _ (hlt o (by simp))] at hc
        cases hc
      · exact ih (fun o' ho' => hlt o' (List.mem_cons_of_mem _ ho')) _ _ x hx hc

/-- What was inserted copies. -/
theorem copies_splice (hall : ∀ i ∈ all, Sound n bound root operations i)
    {rest : List Operation} (hlt : ∀ o ∈ rest, ∀ a ∈ o.results, a < n) (start k : Nat) :
    ∀ o ∈ (splice all start k rest).1, creates n o = true →
      ∃ c a b, o = collectiveOperation c a b ∧ Copies n bound root o a b := by
  intro o ho hc
  obtain ⟨i, hi, hoi⟩ := exists_insertion_of_creates hlt start k o ho hc
  exact (hall i hi).copies o hoi

/-- Erasing what was inserted gives back the operations. -/
theorem erase_splice (hall : ∀ i ∈ all, Sound n bound root operations i)
    {rest : List Operation} (start : Nat) {k : Nat} (hrest : rest = operations.drop k)
    (hlt : ∀ o ∈ rest, ∀ a ∈ o.results, a < n)
    (hroot : ∀ o ∈ rest, ∀ a ∈ o.operands, root a = a) :
    ((splice all start k rest).1.filter fun o => !creates n o).map (renamed root) = rest := by
  induction rest generalizing start k with
  | nil => rfl
  | cons o rest ih =>
    have hhere := sound_at hall hrest
    have hbefore : ((all.filter fun i => i.operation = k).flatMap (·.operations)).filter
        (fun o => !creates n o) = [] := by
      refine List.filter_eq_nil_iff.2 fun x hx => ?_
      obtain ⟨i, hi, hxi⟩ := List.mem_flatMap.1 hx
      obtain ⟨_, a, b, _, hcopy⟩ := (hhere i hi).1.copies x hxi
      simp [hcopy.creates]
    have hop := renamed_here hall hrest (hroot o (by simp))
    have hmore := fun start => ih start (drop_succ_of_cons hrest)
      (fun o' ho' => hlt o' (List.mem_cons_of_mem _ ho'))
      fun o' ho' => hroot o' (List.mem_cons_of_mem _ ho')
    rw [splice, List.filter_append, hbefore, List.nil_append, List.filter_cons_of_pos
      (by rw [creates_foldl_setOperand _ (hlt o (by simp))]; rfl), List.map_cons, hop, hmore]

/-- What is used in front of an operation is known there. -/
theorem usesEarlier_chains {here : List Insertion} {known : List Nat}
    (h : ∀ i ∈ here, UsesEarlier [i.source] i.operations ∧ i.source ∈ known) :
    UsesEarlier known (here.flatMap (·.operations)) := by
  induction here generalizing known with
  | nil => trivial
  | cons i rest ih =>
    obtain ⟨hi, hsource⟩ := h i (by simp)
    rw [List.flatMap_cons, usesEarlier_append]
    exact ⟨hi.mono (by simpa using hsource), ih fun j hj =>
      have hj := h j (List.mem_cons_of_mem _ hj)
      ⟨hj.1, List.mem_append_left _ hj.2⟩⟩

theorem usesEarlier_splice (hall : ∀ i ∈ all, Sound n bound root operations i)
    {rest : List Operation} {start k : Nat} (hrest : rest = operations.drop k)
    {known known' : List Nat} (h : UsesEarlier known rest) (hk : known ⊆ known') :
    UsesEarlier known' (splice all start k rest).1 := by
  induction rest generalizing start k known known' with
  | nil => trivial
  | cons o rest ih =>
    have hhere := sound_at hall hrest
    have hsource : ∀ i ∈ all.filter (fun i => i.operation = k), i.source ∈ known' := fun i hi =>
      hk (h.1 (List.mem_of_getElem? (hhere i hi).2))
    rw [splice, usesEarlier_append]
    refine ⟨usesEarlier_chains fun i hi => ⟨(hhere i hi).1.ordered, hsource i hi⟩,
      fun a ha => ?_, ih (drop_succ_of_cons hrest) h.2 ?_⟩
    · rcases mem_operands_foldl_setOperand ha with ha | ⟨i, hi, rfl⟩
      · exact List.mem_append_left _ (hk (h.1 ha))
      · rcases List.mem_cons.1 (hhere i hi).1.reaches with heq | hresult
        · rw [heq]
          exact List.mem_append_left _ (hsource i hi)
        · obtain ⟨x, hx, hax⟩ := List.mem_flatMap.1 hresult
          exact List.mem_append_right _ (List.mem_flatMap.2
            ⟨x, List.mem_flatMap.2 ⟨i, hi, hx⟩, hax⟩)
    · rw [setOperand_results]
      intro a ha
      rcases List.mem_append.1 ha with ha | ha
      · exact List.mem_append_left _ (List.mem_append_left _ (hk ha))
      · exact List.mem_append_right _ ha

/-- Every reshard is of an operand of an operation that was there, and names what the
operand was. -/
theorem reshards_splice (hall : ∀ i ∈ all, Sound n bound root operations i)
    {rest : List Operation} {start k : Nat} (hrest : rest = operations.drop k)
    (hlt : ∀ o ∈ rest, ∀ a ∈ o.results, a < n)
    (hroot : ∀ o ∈ rest, ∀ a ∈ o.operands, root a = a) :
    ∀ r ∈ (splice all start k rest).2, start ≤ r.operation ∧ ∃ o v,
      (splice all start k rest).1[r.operation - start]? = some o ∧ creates n o = false ∧
      o.operands[r.operand]? = some v ∧ root v = r.source := by
  induction rest generalizing start k with
  | nil => nofun
  | cons o rest ih =>
    intro r hr
    rw [splice] at hr ⊢
    generalize hbefore : (all.filter fun i => i.operation = k).flatMap (·.operations) = before
      at hr ⊢
    rcases List.mem_append.1 hr with hr | hr
    · obtain ⟨i, hi, rfl⟩ := List.mem_map.1 hr
      have hoperands := congrArg Operation.operands
        (renamed_here hall hrest (hroot o (by simp)))
      have hsource := (sound_at hall hrest i hi).2
      rw [← hoperands, renamed, List.getElem?_map] at hsource
      obtain ⟨v, hv, hsame⟩ := Option.map_eq_some_iff.1 hsource
      refine ⟨Nat.le_add_right _ _, _, v, ?_, creates_foldl_setOperand _ (hlt o (by simp)), hv,
        hsame⟩
      rw [Nat.add_sub_cancel_left, List.getElem?_append_right (Nat.le_refl _), Nat.sub_self]
      rfl
    · obtain ⟨hstart, o', v, hget, hrest⟩ := ih (drop_succ_of_cons hrest)
        (fun o' ho' => hlt o' (List.mem_cons_of_mem _ ho'))
        (fun o' ho' => hroot o' (List.mem_cons_of_mem _ ho')) r hr
      refine ⟨by omega, o', v, ?_, hrest⟩
      rw [← hget, List.getElem?_append_right (by omega), List.getElem?_cons,
        if_neg (by omega)]
      congr 1
      omega

theorem splice_nil (start k : Nat) (rest : List Operation) :
    splice [] start k rest = (rest, []) := by
  induction rest generalizing start k with
  | nil => rfl
  | cons o rest ih => simp [splice, ih]

end splice

section program

variable {p : Program} {bound : Nat} {all : List Insertion}

/-- Insertions into a program that are erased again leave it as it was. -/
theorem erased_splice (hw : p.WellFormed) (hroot : ∀ v < p.values.length, root v = v)
    (hall : ∀ i ∈ all, Sound p.values.length bound root p.operations i) :
    let operations := (splice all 0 0 p.operations).1
    (∀ o ∈ operations, ∀ v ∈ o.operands, rootOf p.values.length operations v = root v) ∧
      erased p.values.length operations = p.operations := by
  intro operations
  have hcopies := copies_splice hall hw.results_lt 0 0
  have hordered : UsesEarlier p.arguments operations :=
    usesEarlier_splice hall rfl hw.ordered (List.Subset.refl _)
  have hrootOf : ∀ o ∈ operations, ∀ v ∈ o.operands,
      rootOf p.values.length operations v = root v := fun o ho v hv =>
    rootOf_eq hroot hw.arguments_lt (fun x hx hc =>
      have ⟨_, a, b, _, hcopy⟩ := hcopies x hx hc
      ⟨a, b, hcopy⟩) hordered ho hv
  refine ⟨hrootOf, ?_⟩
  have hrenamed : ∀ o ∈ operations.filter fun o => !creates p.values.length o,
      renamed (rootOf p.values.length operations) o = renamed root o := by
    intro o ho
    rw [renamed, renamed, List.map_congr_left (hrootOf o (List.mem_filter.1 ho).1)]
  rw [erased, List.map_congr_left hrenamed]
  exact erase_splice hall _ rfl hw.results_lt fun o ho v hv => hroot v (hw.operands_lt ho v hv)

end program

end Export
end MeshSharding
