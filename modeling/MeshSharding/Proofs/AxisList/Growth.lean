import MeshSharding.Proofs.AxisList.Order

/-! Lists of references that grow evenly: each reference that reaches beyond all those that begin
before it ends at a multiple of the place where the stretch around it begins. What the first
reference of a sorted list does with the second one, when it takes it in or keeps it apart, leaves
this property as it was. -/
namespace MeshSharding
namespace AxisList

open AxisRef (StartsBy)

variable {m : Mesh} {l r rest : List AxisRef} {a b last : AxisRef} {name : String}
  {c first : Nat}

section spec

/-- A reference of the list covers the part of the axis behind the place. -/
def Covered (m : Mesh) (l : List AxisRef) (name : String) (c : Nat) : Prop :=
  ∃ a ∈ l, a.covers m name c = true

/-- The list covers the axis from the place `first` through the place `c`, but not in front of
`first`. -/
structure Stretch (m : Mesh) (l : List AxisRef) (name : String) (first c : Nat) : Prop where
  le : first ≤ c
  covered : ∀ d, first ≤ d → d ≤ c → Covered m l name d
  free : ∀ d, d + 1 = first → ¬ Covered m l name d

/-- No reference of the list to the same axis begins sooner and ends no sooner. -/
def Surpassing (m : Mesh) (l : List AxisRef) (a : AxisRef) : Prop :=
  ∀ b ∈ l, b.name = a.name → b.preSize < a.preSize → b.nextPreSize m < a.nextPreSize m

/-- Where a reference reaches beyond all those that begin before it, it ends at a multiple of the
place where the stretch begins that leads to it. -/
def GrowsEvenly (m : Mesh) (l : List AxisRef) : Prop :=
  ∀ a ∈ l, Surpassing m l a → ∀ first, Stretch m l a.name first a.preSize →
    first ∣ a.nextPreSize m

end spec

section covered

theorem covered_cons_iff : Covered m (a :: l) name c ↔
    (a.name = name ∧ a.preSize ≤ c ∧ c < a.nextPreSize m) ∨ Covered m l name c := by
  simp [Covered, AxisRef.covers]

theorem covered_iff : Covered m l name c ↔
    ∃ a ∈ l, a.name = name ∧ a.preSize ≤ c ∧ c < a.nextPreSize m := by
  simp [Covered, AxisRef.covers]

theorem Covered.of_mem (ha : a ∈ l) (h1 : a.preSize ≤ c) (h2 : c < a.nextPreSize m) :
    Covered m l a.name c :=
  covered_iff.2 ⟨a, ha, rfl, h1, h2⟩

theorem preSize_dvd_nextPreSize (a : AxisRef) : a.preSize ∣ a.nextPreSize m :=
  Nat.dvd_mul_right a.preSize (a.size m)

theorem covered_perm (h : l.Perm r) : Covered m l name c ↔ Covered m r name c := by
  simp only [Covered, h.mem_iff]

theorem Stretch.congr (hs : Stretch m l name first c)
    (h : ∀ c, Covered m l name c ↔ Covered m r name c) : Stretch m r name first c where
  le := hs.le
  covered d h1 h2 := (h d).1 (hs.covered d h1 h2)
  free d hd := mt (h d).2 (hs.free d hd)

theorem surpassing_cons : Surpassing m (b :: l) a ↔
    (b.name = a.name → b.preSize < a.preSize → b.nextPreSize m < a.nextPreSize m) ∧
      Surpassing m l a := List.forall_mem_cons

theorem Surpassing.of_subset (h : Surpassing m r a) (hl : l ⊆ r) : Surpassing m l a :=
  fun b hb => h b (hl hb)

/-- Of lists that cover the same, one grows evenly if the other one does and has the references
that matter. -/
theorem GrowsEvenly.of_covered (h : GrowsEvenly m r)
    (hcovered : ∀ name c, Covered m l name c ↔ Covered m r name c)
    (hl : ∀ a ∈ l, Surpassing m l a → a ∈ r ∧ Surpassing m r a ∨
      ∀ first, Stretch m l a.name first a.preSize → first ∣ a.nextPreSize m) :
    GrowsEvenly m l := by
  intro a ha hsur first hs
  rcases hl a ha hsur with ⟨hr, hsur⟩ | hdvd
  · exact h a hr hsur first (hs.congr (hcovered a.name))
  · exact hdvd first hs

theorem growsEvenly_perm (h : l.Perm r) : GrowsEvenly m l ↔ GrowsEvenly m r := by
  have himp : ∀ {l r : List AxisRef}, l.Perm r → GrowsEvenly m r → GrowsEvenly m l :=
    fun hp hr => hr.of_covered (fun _ _ => covered_perm hp) fun a ha hsur =>
      .inl ⟨hp.mem_iff.1 ha, hsur.of_subset hp.symm.subset⟩
  exact ⟨himp h.symm, himp h⟩

/-- A stretch begins where the first reference to the axis does, if it comes that far. -/
theorem Stretch.first_eq (h : Stretch m l name first c) {p : Nat}
    (hp : ∀ a ∈ l, a.name = name → p ≤ a.preSize)
    (hcovered : ∀ d, p ≤ d → d < c → Covered m l name d) : first = p := by
  obtain ⟨a, ha, hn, hpre, -⟩ := covered_iff.1 (h.covered first (Nat.le_refl _) h.le)
  have hle := hp a ha hn
  by_contra hne
  obtain ⟨d, rfl⟩ : ∃ d, first = d + 1 := ⟨first - 1, by omega⟩
  have hdc := h.le
  exact h.free d rfl (hcovered d (by omega) (by omega))

end covered

section ready

/-- The reference that begins with the first one and ends with the second one. -/
def extend (m : Mesh) (a b : AxisRef) : AxisRef :=
  .ofWindow a.name a.preSize (b.nextPreSize m / a.preSize) (a.fullSize m)

@[simp] theorem extend_name (m : Mesh) (a b : AxisRef) : (extend m a b).name = a.name := by
  simp [extend]

@[simp] theorem extend_preSize (m : Mesh) (a b : AxisRef) :
    (extend m a b).preSize = a.preSize := by simp [extend]

theorem extend_nextPreSize (h : a.preSize ∣ b.nextPreSize m) :
    (extend m a b).nextPreSize m = b.nextPreSize m := by
  rw [extend, AxisRef.ofWindow_nextPreSize, Nat.mul_div_cancel' h]

theorem valid_extend (ha : a.Valid m) (hb : b.Valid m) (hn : a.name = b.name)
    (hlt : a.preSize < b.nextPreSize m) (hd : a.preSize ∣ b.nextPreSize m) :
    (extend m a b).Valid m := by
  refine AxisRef.valid_ofWindow ha.known ha.preSize_pos ?_ ?_
  · obtain ⟨k, hk⟩ := hd
    rw [hk, Nat.mul_div_cancel_left k ha.preSize_pos]
    rw [hk] at hlt
    exact Nat.lt_of_mul_lt_mul_left (a := a.preSize) (by rwa [Nat.mul_one])
  · rw [Nat.mul_div_cancel' hd, AxisRef.fullSize_congr m hn]
    exact hb.nextPreSize_dvd

/-- The reference kept last, and the sorted references that follow it. -/
structure Ready (m : Mesh) (last : AxisRef) (rest : List AxisRef) : Prop where
  valid : AllValid m (last :: rest)
  wide : ∀ a ∈ last :: rest, a.preSize < a.nextPreSize m
  starts : ∀ a ∈ rest, StartsBy m last a
  sorted : rest.Pairwise fun a b => (a.compare b m).isLE = true

namespace Ready

theorem next (h : Ready m last (a :: rest)) : Ready m a rest where
  valid := (allValid_cons.1 h.valid).2
  wide := (List.forall_mem_cons.1 h.wide).2
  starts _ hb := AxisRef.startsBy_of_isLE_compare (List.rel_of_pairwise_cons h.sorted hb)
  sorted := h.sorted.of_cons

theorem skip (h : Ready m last (a :: rest)) : Ready m last rest where
  valid := h.valid.subset (List.cons_subset_cons last (List.subset_cons_self a rest))
  wide b hb := h.wide b (List.cons_subset_cons last (List.subset_cons_self a rest) hb)
  starts b hb := h.starts b (List.mem_cons_of_mem a hb)
  sorted := h.sorted.of_cons

theorem extend (h : Ready m last (a :: rest)) (hn : last.name = a.name)
    (hlt : last.nextPreSize m < a.nextPreSize m) (hd : last.preSize ∣ a.nextPreSize m) :
    Ready m (extend m last a) rest where
  valid := by
    obtain ⟨hlast, hrest⟩ := allValid_cons.1 h.valid
    obtain ⟨ha, hrest⟩ := allValid_cons.1 hrest
    have hwide := h.wide last List.mem_cons_self
    exact allValid_cons.2 ⟨valid_extend hlast ha hn (hwide.trans hlt) hd, hrest⟩
  wide := by
    refine List.forall_mem_cons.2 ⟨?_, fun b hb => h.wide b (by simp [hb])⟩
    rw [extend_nextPreSize hd, extend_preSize]
    exact (h.wide last List.mem_cons_self).trans hlt
  starts b hb := by
    have hstarts := h.starts b (List.mem_cons_of_mem a hb)
    rwa [StartsBy, extend_name, extend_preSize, AxisRef.earlier_congr_left (extend_name m last a)]
  sorted := h.sorted.of_cons

/-- All references to the axis of the kept one begin no sooner. -/
theorem preSize_le (h : Ready m last rest) : ∀ b ∈ last :: rest, b.name = last.name →
    last.preSize ≤ b.preSize := by
  refine List.forall_mem_cons.2 ⟨fun _ => Nat.le_refl _, fun b hb hn => ?_⟩
  rcases h.starts b hb with hearlier | ⟨-, hle⟩
  · exact absurd hn.symm hearlier.name_ne
  · exact hle

end Ready

/-- A stretch that leads to the end of the kept reference begins with it. -/
theorem Ready.first_eq (h : Ready m last rest) (hs : Stretch m (last :: rest) name first c)
    (hn : last.name = name) (hc : c ≤ last.nextPreSize m) : first = last.preSize := by
  subst hn
  exact hs.first_eq h.preSize_le fun d h1 h2 => .of_mem List.mem_cons_self h1 (by omega)

/-- The kept reference itself grows evenly. -/
theorem Ready.first_dvd (h : Ready m last rest)
    (hs : Stretch m (last :: rest) last.name first last.preSize) : first ∣ last.nextPreSize m := by
  rw [h.first_eq hs rfl (Nat.le_of_lt (h.wide last List.mem_cons_self))]
  exact preSize_dvd_nextPreSize last

end ready

section step

theorem Ready.covered_inside (h : Ready m last (a :: rest)) (hn : last.name = a.name)
    (hle : a.nextPreSize m ≤ last.nextPreSize m) (name : String) (c : Nat) :
    Covered m (last :: a :: rest) name c ↔ Covered m (last :: rest) name c := by
  have hpre := h.preSize_le a (by simp) hn.symm
  simp only [covered_cons_iff, hn]
  grind

theorem Ready.covered_extend (h : Ready m last (a :: rest)) (hn : last.name = a.name)
    (hmeets : a.preSize ≤ last.nextPreSize m) (hlt : last.nextPreSize m < a.nextPreSize m)
    (hdvd : last.preSize ∣ a.nextPreSize m) (name : String) (c : Nat) :
    Covered m (last :: a :: rest) name c ↔ Covered m (AxisList.extend m last a :: rest) name c := by
  have hpre := h.preSize_le a (by simp) hn.symm
  simp only [covered_cons_iff, extend_name, extend_preSize, extend_nextPreSize hdvd, hn]
  grind

/-- A reference inside of the kept one changes nothing. -/
theorem Ready.growsEvenly_inside (h : Ready m last (a :: rest)) (hn : last.name = a.name)
    (hle : a.nextPreSize m ≤ last.nextPreSize m) :
    GrowsEvenly m (last :: a :: rest) ↔ GrowsEvenly m (last :: rest) := by
  have hpre := h.preSize_le a (by simp) hn.symm
  have hcovered := h.covered_inside hn hle
  have hsubset : last :: rest ⊆ last :: a :: rest :=
    List.cons_subset_cons last (List.subset_cons_self a rest)
  constructor
  · refine fun hg => hg.of_covered (fun name c => (hcovered name c).symm) fun b hb hsur =>
      .inl ⟨hsubset hb, ?_⟩
    obtain ⟨hlast, hrest⟩ := surpassing_cons.1 hsur
    refine surpassing_cons.2 ⟨hlast, surpassing_cons.2 ⟨fun han hlt => ?_, hrest⟩⟩
    have := hlast (hn.trans han) (by omega)
    omega
  · refine fun hg => hg.of_covered hcovered fun b hb hsur => ?_
    by_cases hkept : b ∈ last :: rest
    · exact .inl ⟨hkept, hsur.of_subset hsubset⟩
    · -- only `a` is missing, which reaches no farther unless both begin together
      obtain rfl : b = a := by
        simp only [List.mem_cons, not_or] at hb hkept
        simpa [hkept] using hb
      have hstart : last.preSize = b.preSize := by
        by_contra hne
        have := (surpassing_cons.1 hsur).1 hn (by omega)
        omega
      have hwide := h.wide last List.mem_cons_self
      refine .inr fun first hs => ?_
      rw [h.first_eq hs hn (by omega), hstart]
      exact preSize_dvd_nextPreSize b

/-- Behind a reference that makes the kept one longer, one that reaches beyond all reaches beyond
the longer one, unless it has the same window. -/
theorem Ready.surpassing_extend_or (h : Ready m last (a :: rest)) (hn : last.name = a.name)
    (hdvd : last.preSize ∣ a.nextPreSize m) (hb : b ∈ rest)
    (hsur : Surpassing m (last :: a :: rest) b) :
    Surpassing m (AxisList.extend m last a :: rest) b ∨
      last.name = b.name ∧ a.preSize = b.preSize ∧ a.nextPreSize m = b.nextPreSize m := by
  obtain ⟨-, ha, hrest⟩ := (surpassing_cons.1 hsur).imp_right surpassing_cons.1
  by_cases hin : last.name = b.name ∧ b.nextPreSize m ≤ a.nextPreSize m
  · obtain ⟨hbn, hle⟩ := hin
    have hab := hn.symm.trans hbn
    have hstart : b.preSize ≤ a.preSize := by
      by_contra hlt
      have := ha hab (by omega)
      omega
    exact .inr ⟨hbn, AxisRef.bounds_eq_of_isLE_compare (List.rel_of_pairwise_cons h.sorted hb)
      hab hstart hle⟩
  · refine .inl (surpassing_cons.2 ⟨fun hbn _ => ?_, hrest⟩)
    rw [extend_name] at hbn
    rw [extend_nextPreSize hdvd]
    by_contra hlt
    exact hin ⟨hbn, by omega⟩

/-- A reference that makes the kept one longer does so evenly. -/
theorem Ready.growsEvenly_extend (h : Ready m last (a :: rest)) (hn : last.name = a.name)
    (hmeets : a.preSize ≤ last.nextPreSize m) (hlt : last.nextPreSize m < a.nextPreSize m)
    (hdvd : last.preSize ∣ a.nextPreSize m) :
    GrowsEvenly m (last :: a :: rest) ↔ GrowsEvenly m (AxisList.extend m last a :: rest) := by
  have hpre := h.preSize_le a (by simp) hn.symm
  have hcovered := h.covered_extend hn hmeets hlt hdvd
  constructor
  · refine fun hg => hg.of_covered (fun name c => (hcovered name c).symm) fun b hb hsur => ?_
    rcases List.mem_cons.1 hb with rfl | hb
    · exact .inr fun first hs => (h.extend hn hlt hdvd).first_dvd hs
    · obtain ⟨hfirst, hrest⟩ := surpassing_cons.1 hsur
      rw [extend_name, extend_preSize, extend_nextPreSize hdvd] at hfirst
      refine .inl ⟨by simp [hb], surpassing_cons.2 ⟨fun hbn hb' => hlt.trans (hfirst hbn hb'),
        surpassing_cons.2 ⟨fun hbn hb' => hfirst (hn.trans hbn) (by omega), hrest⟩⟩⟩
  · refine fun hg => hg.of_covered hcovered fun b hb hsur => ?_
    -- where `b` begins before the kept reference ends, its stretch begins with that one
    have hinner : last.name = b.name → b.preSize ≤ last.nextPreSize m →
        last.preSize ∣ b.nextPreSize m → ∀ first, Stretch m (last :: a :: rest) b.name first
          b.preSize → first ∣ b.nextPreSize m := fun hbn hle hd first hs => by
      rwa [h.first_eq hs hbn hle]
    rcases List.mem_cons.1 hb with rfl | hb
    · exact .inr fun first hs => h.first_dvd hs
    · rcases List.mem_cons.1 hb with rfl | hb
      · exact .inr (hinner hn hmeets hdvd)
      · rcases h.surpassing_extend_or hn hdvd hb hsur with hsur | ⟨hbn, hstart, hend⟩
        · exact .inl ⟨List.mem_cons_of_mem _ hb, hsur⟩
        · exact .inr (hinner hbn (hstart ▸ hmeets) (hend ▸ hdvd))

/-- Behind a gap, all references to the axis begin behind the kept one. -/
theorem Ready.lt_preSize (h : Ready m last (a :: rest))
    (hgap : last.name = a.name → last.nextPreSize m < a.preSize) (hb : b ∈ a :: rest)
    (hn : last.name = b.name) : last.nextPreSize m < b.preSize := by
  rcases h.starts a List.mem_cons_self with hearlier | ⟨hla, -⟩
  · refine absurd hn (AxisRef.Earlier.name_ne (m := m) ?_)
    rcases List.mem_cons.1 hb with rfl | hb
    · exact hearlier
    · rcases h.next.starts b hb with hearlier' | ⟨hab, -⟩
      · exact hearlier.trans hearlier'
      · exact (AxisRef.earlier_congr_right hab).1 hearlier
  · have := h.next.preSize_le b hb (hn.symm.trans hla)
    have := hgap hla
    omega

theorem Ready.lt_of_covered (h : Ready m last (a :: rest))
    (hgap : last.name = a.name → last.nextPreSize m < a.preSize) (hn : last.name = name)
    (hc : Covered m (a :: rest) name c) : last.nextPreSize m < c := by
  obtain ⟨x, hx, hxn, hle, -⟩ := covered_iff.1 hc
  exact Nat.lt_of_lt_of_le (h.lt_preSize hgap hx (hn.trans hxn.symm)) hle

/-- In front of a gap, the kept reference is in no stretch that leads to one behind it. -/
theorem Ready.stretch_apart (h : Ready m last (a :: rest))
    (hgap : last.name = a.name → last.nextPreSize m < a.preSize) (hb : b ∈ a :: rest) :
    Stretch m (last :: a :: rest) b.name first b.preSize
      ↔ Stretch m (a :: rest) b.name first b.preSize := by
  constructor
  · intro hs
    -- the place where the kept reference ends is not covered, so the stretch begins behind it
    have hfirst : last.name = b.name → last.nextPreSize m < first := by
      intro hn
      by_contra hle
      have hend := h.lt_preSize hgap hb hn
      rcases covered_cons_iff.1 (hs.covered (last.nextPreSize m) (by omega) (by omega)) with
        ⟨-, -, hlt⟩ | hc
      · exact Nat.lt_irrefl _ hlt
      · exact Nat.lt_irrefl _ (h.lt_of_covered hgap hn hc)
    refine ⟨hs.le, fun d h1 h2 => ?_,
      fun d hd hc => hs.free d hd (covered_cons_iff.2 (.inr hc))⟩
    rcases covered_cons_iff.1 (hs.covered d h1 h2) with ⟨hn, -, hlt⟩ | hc
    · have := hfirst hn
      omega
    · exact hc
  · intro hs
    refine ⟨hs.le, fun d h1 h2 => covered_cons_iff.2 (.inr (hs.covered d h1 h2)),
      fun d hd hc => ?_⟩
    rcases covered_cons_iff.1 hc with ⟨hn, -, hlt⟩ | hc
    · have := h.lt_of_covered hgap hn (hs.covered first (Nat.le_refl _) hs.le)
      omega
    · exact hs.free d hd hc

/-- In front of a gap, the kept reference does not matter for those behind it. -/
theorem Ready.growsEvenly_apart (h : Ready m last (a :: rest))
    (hgap : last.name = a.name → last.nextPreSize m < a.preSize) :
    GrowsEvenly m (last :: a :: rest) ↔ GrowsEvenly m (a :: rest) := by
  constructor
  · intro hg b hb hsur first hs
    refine hg b (List.mem_cons_of_mem last hb) (surpassing_cons.2 ⟨fun hn _ => ?_, hsur⟩) first
      ((h.stretch_apart hgap hb).2 hs)
    exact (h.lt_preSize hgap hb hn).trans (h.next.wide b hb)
  · intro hg b hb hsur first hs
    rcases List.mem_cons.1 hb with rfl | hb
    · exact h.first_dvd hs
    · exact hg b hb (surpassing_cons.1 hsur).2 first ((h.stretch_apart hgap hb).1 hs)

/-- A reference that cannot be joined to the kept one, though they overlap, does not grow
evenly. -/
theorem Ready.not_growsEvenly (h : Ready m last (a :: rest)) (hn : last.name = a.name)
    (hpre : last.preSize < a.preSize) (hoverlap : a.preSize < last.nextPreSize m)
    (hlt : last.nextPreSize m < a.nextPreSize m) (hdvd : ¬ last.preSize ∣ a.nextPreSize m) :
    ¬ GrowsEvenly m (last :: a :: rest) := by
  intro hg
  refine hdvd
    (hg a (by simp) ?_ last.preSize ⟨Nat.le_of_lt hpre, fun d h1 h2 => ?_, fun d hd => ?_⟩)
  · refine surpassing_cons.2 ⟨fun _ _ => hlt, fun b hb hbn hb' => ?_⟩
    have := h.next.preSize_le b hb hbn
    omega
  · exact hn ▸ .of_mem List.mem_cons_self h1 (by omega)
  · rw [covered_iff]
    rintro ⟨b, hb, hbn, hle, -⟩
    have := h.preSize_le b hb (hbn.trans hn.symm)
    omega

end step

end AxisList
end MeshSharding
