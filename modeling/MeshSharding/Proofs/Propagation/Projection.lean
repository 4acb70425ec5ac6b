import MeshSharding.Proofs.Propagation.Share
import MeshSharding.Rule.Verify

/-! Reading portions back. The axes that are joined for the factors of a dimension are dealt
out to them as they were meant exactly if each factor with axes behind it is full. -/
namespace MeshSharding
namespace Sorted

variable {α β : Type} [DecidableEq α] {k : α} {v : β} {entries : List (α × β)}

theorem mem_of_find? (h : find? k entries = some v) : (k, v) ∈ entries := by
  induction entries with
  | nil => cases h
  | cons entry rest ih =>
    rw [find?_cons] at h
    split at h
    · rename_i hk
      cases h
      exact List.mem_cons.2 (.inl (by rw [← hk]))
    · exact List.mem_cons_of_mem _ (ih h)

theorem find?_eq_none (h : k ∉ entries.map (·.1)) : find? k entries = none := by
  cases hf : find? k entries with
  | none => rfl
  | some v => exact absurd (List.mem_map_of_mem (f := (·.1)) (mem_of_find? hf)) h

theorem find?_eq_some (hn : (entries.map (·.1)).Nodup) (h : (k, v) ∈ entries) :
    find? k entries = some v := by
  induction entries with
  | nil => cases h
  | cons entry rest ih =>
    rw [List.map_cons, List.nodup_cons] at hn
    rw [find?_cons]
    rcases List.mem_cons.1 h with rfl | h
    · rw [if_pos rfl]
    · have hne : entry.1 ≠ k := by
        rintro rfl
        exact hn.1 (List.mem_map_of_mem (f := (·.1)) h)
      rw [if_neg hne, ih hn.2 h]

/-- A map built of entries with distinct keys has these entries. -/
theorem find?_ofEntries [LT α] [DecidableLT α] (hn : (entries.map (·.1)).Nodup) :
    find? k (ofEntries entries) = find? k entries := by
  have hfold : ∀ map : List (α × β),
      find? k (entries.foldl (fun map entry => put entry.1 entry.2 map) map)
        = (find? k entries).or (find? k map) := by
    induction entries with
    | nil => intro map; simp
    | cons entry rest ih =>
      intro map
      rw [List.map_cons, List.nodup_cons] at hn
      rw [List.foldl_cons, ih hn.2, find?_put, find?_cons]
      by_cases hk : k = entry.1
      · subst hk
        rw [find?_eq_none hn.1]
        simp
      · simp [hk, Ne.symm hk]
  rw [ofEntries, hfold]
  simp

end Sorted

open AxisList

/-- The axes of a factor with those that overflow it. -/
structure Portion where
  axes : List AxisRef
  overflow : List AxisRef
deriving DecidableEq

namespace Portion

variable {m : Mesh} {n : Nat} {v w : Portion} {l t : List AxisRef} {share : Share}

def all (w : Portion) : List AxisRef := w.axes ++ w.overflow

def ofFactor (f : FactorSharding) : Portion := ⟨f.axes, f.overflow⟩

/-- Both portions shard a factor alike. -/
def Same (m : Mesh) (v w : Portion) : Prop :=
  mergeAdjacent m v.axes = mergeAdjacent m w.axes ∧
    mergeAdjacent m v.overflow = mergeAdjacent m w.overflow

instance (m : Mesh) (v w : Portion) : Decidable (v.Same m w) :=
  inferInstanceAs (Decidable (_ ∧ _))

/-- A factor of size `n` that finds the portion alone takes it as it is. -/
def Fits (m : Mesh) (n : Nat) (w : Portion) : Prop :=
  ∃ share, Share.take m n (mergeAdjacent m w.all) = .ok share ∧
    w.Same m ⟨share.axes, share.overflow⟩ ∧ share.rest = []

/-- The portion uses up a factor of size `n`. -/
def Fills (m : Mesh) (n : Nat) (w : Portion) : Prop :=
  totalSize m w.axes = max n 1 ∧ w.overflow = []

theorem Same.all_eq (h : v.Same m w) : mergeAdjacent m v.all = mergeAdjacent m w.all :=
  mergeAdjacent_append_congr h.1 h.2

theorem Same.symm (h : v.Same m w) : w.Same m v := ⟨h.1.symm, h.2.symm⟩

/-- A factor with a portion that fits and fills it takes that off any list. -/
theorem Fits.take_append (hfit : w.Fits m n) (hfill : w.Fills m n) (hw : AllValid m w.all)
    (ht : AllValid m t) : ∃ x, w.Same m ⟨x, []⟩ ∧
      Share.take m n (mergeAdjacent m (w.all ++ t)) = .ok ⟨x, [], mergeAdjacent m t⟩ := by
  obtain ⟨⟨x, o, rest⟩, htake, hsame, hnil⟩ := hfit
  obtain rfl : rest = [] := hnil
  have ho := hsame.2
  rw [hfill.2, eq_comm, mergeAdjacent_nil, mergeAdjacent_eq_nil_iff] at ho
  obtain rfl : o = [] := ho
  have htakes := (Share.take_eq_ok_iff hw.mergeAdjacent).1 htake
  have hx : mergeAdjacent m w.all = x := by simpa using htakes.eq_append
  rw [hx] at htakes
  have hsize : totalSize m x = max n 1 := by
    rw [← hfill.1, ← hx, totalSize_mergeAdjacent, all, hfill.2, List.append_nil]
  have hv : AllValid m x := hx ▸ hw.mergeAdjacent
  have hsep : Separated m x := hx ▸ separated_mergeAdjacent _
  have hlong := htakes.append hv ht.mergeAdjacent hsep (separated_mergeAdjacent t) hsize
  have hjoin : mergeAdjacent m (w.all ++ t) = mergeAdjacent m (x ++ mergeAdjacent m t) := by
    rw [← hx]
    exact mergeAdjacent_append_congr (by simp) (by simp)
  have hall := (allValid_append.2 ⟨hv, ht.mergeAdjacent⟩).mergeAdjacent
  exact ⟨x, hsame, by rw [hjoin, Share.take_eq_ok_iff hall]; exact hlong⟩

/-- A portion that a factor takes off a longer list fits and fills it. -/
theorem fits_and_fills {x o rest : List AxisRef} (hl : AllValid m l) (hs : Separated m l)
    (h : Share.take m n l = .ok ⟨x, o, rest⟩) (hsame : w.Same m ⟨x, o⟩) (hw : AllValid m w.all)
    (hrest : rest ≠ []) : w.Fits m n ∧ w.Fills m n := by
  have htakes := (Share.take_eq_ok_iff hl).1 h
  obtain ⟨hsize, ho⟩ := (htakes.stops hl).resolve_left hrest
  obtain rfl : o = [] := ho
  have hover : w.overflow = [] := (mergeAdjacent_eq_nil_iff (m := m)).1 hsame.2
  have hfill : totalSize m w.axes = max n 1 := by
    rw [← hsize, ← totalSize_mergeAdjacent, hsame.1, totalSize_mergeAdjacent]
  have haxes : mergeAdjacent m w.all = x := by
    rw [all, hover, List.append_nil, hsame.1]
    exact (htakes.separated hl hs).1.mergeAdjacent_eq
  have hagain := htakes.again hl
  rw [← haxes] at hagain hsame
  exact ⟨⟨_, (Share.take_eq_ok_iff hw.mergeAdjacent).2 hagain, hsame, rfl⟩, hfill, hover⟩

/-- A factor takes its portion off a list exactly if the portion fits it, and fills it unless
nothing follows. -/
theorem take_iff {x o rest : List AxisRef} (hw : AllValid m w.all) (ht : AllValid m t)
    (h : Share.take m n (mergeAdjacent m (w.all ++ t)) = .ok ⟨x, o, rest⟩) :
    w.Same m ⟨x, o⟩ ∧ mergeAdjacent m rest = mergeAdjacent m t ↔
      w.Fits m n ∧ (w.Fills m n ∨ t = []) := by
  constructor
  · rintro ⟨hsame, hrest⟩
    by_cases htail : t = []
    · subst htail
      rw [List.append_nil] at h
      exact ⟨⟨_, h, hsame, mergeAdjacent_eq_nil_iff.1 hrest⟩, .inr rfl⟩
    · have hne : rest ≠ [] := by
        rintro rfl
        exact htail (mergeAdjacent_eq_nil_iff.1 hrest.symm)
      have hall := (allValid_append.2 ⟨hw, ht⟩).mergeAdjacent
      exact (fits_and_fills hall (separated_mergeAdjacent _) h hsame hw hne).imp_right .inl
  · rintro ⟨hfit, hfill | rfl⟩
    · obtain ⟨y, hsame, htake⟩ := hfit.take_append hfill hw ht
      cases h.symm.trans htake
      exact ⟨hsame, mergeAdjacent_mergeAdjacent t⟩
    · obtain ⟨share, htake, hsame, hnil⟩ := hfit
      rw [List.append_nil, htake] at h
      cases h
      obtain rfl : rest = [] := hnil
      exact ⟨hsame, rfl⟩

/-- What is left of a list is left of its merged form, too. -/
theorem exists_take_merged {x o rest : List AxisRef} (hl : AllValid m l)
    (h : Share.take m n l = .ok ⟨x, o, rest⟩) (hrest : rest ≠ []) :
    ∃ y, Portion.Same m ⟨x, o⟩ ⟨y, []⟩ ∧
      Share.take m n (mergeAdjacent m l) = .ok ⟨y, [], mergeAdjacent m rest⟩ := by
  have htakes := (Share.take_eq_ok_iff hl).1 h
  obtain ⟨hsize, ho⟩ := (htakes.stops hl).resolve_left hrest
  obtain rfl : o = [] := ho
  obtain ⟨hjoin, hv⟩ := htakes.joined hl
  rw [List.append_nil] at hjoin hv
  obtain ⟨hx, hr⟩ := allValid_append.1 hv
  have hall : Portion.all ⟨x, []⟩ = x := List.append_nil x
  have hfits : Portion.Fits m n ⟨x, []⟩ := by
    refine ⟨⟨mergeAdjacent m x, [], []⟩, ?_, ⟨(mergeAdjacent_mergeAdjacent x).symm, rfl⟩, rfl⟩
    rw [hall, Share.take_eq_ok_iff hx.mergeAdjacent]
    exact (htakes.again hl).merged hx hsize
  obtain ⟨y, hsame, htake⟩ := hfits.take_append ⟨hsize, rfl⟩ (hall.symm ▸ hx) hr
  rw [hall, hjoin] at htake
  exact ⟨y, hsame, htake⟩

/-- Off axes that join to a portion that fits and fills the factor, and to others, the factor leaves
the others, if any. -/
theorem mergeAdjacent_rest {x o rest : List AxisRef} (hw : AllValid m w.all) (ht : AllValid m t)
    (hl : AllValid m l) (hjoin : mergeAdjacent m l = mergeAdjacent m (w.all ++ t))
    (hfit : w.Fits m n) (hfill : w.Fills m n ∨ t = [])
    (h : Share.take m n l = .ok ⟨x, o, rest⟩) (hrest : rest ≠ []) :
    mergeAdjacent m rest = mergeAdjacent m t := by
  obtain ⟨y, -, hmerged⟩ := exists_take_merged hl h hrest
  rw [hjoin] at hmerged
  have hsame := ((take_iff hw ht hmerged).2 ⟨hfit, hfill⟩).2
  rwa [mergeAdjacent_mergeAdjacent] at hsame

/-- A factor takes no axes if the portion that is meant for it has none and fills it, or if there
are no others. -/
theorem take_eq_nil {x o rest : List AxisRef} (hl : AllValid m l) (hw : w.all = [])
    (hjoin : mergeAdjacent m l = mergeAdjacent m t) (hfill : w.Fills m n ∨ t = [])
    (h : Share.take m n l = .ok ⟨x, o, rest⟩) : x = [] ∧ o = [] := by
  have htakes := (Share.take_eq_ok_iff hl).1 h
  rcases hfill with hfill | rfl
  · -- without axes only a factor of size 1 is filled
    have hn : n ≤ 1 := by
      have haxes : w.axes = [] := (List.append_eq_nil_iff.1 hw).1
      have := hfill.1
      rw [haxes, totalSize_nil] at this
      omega
    cases htakes with
    | nil | full => exact ⟨rfl, rfl⟩
    | next hn' | cut hn' | misfit hn' => omega
  · rw [mergeAdjacent_nil, mergeAdjacent_eq_nil_iff] at hjoin
    subst hjoin
    cases htakes
    exact ⟨rfl, rfl⟩

end Portion

namespace Rule

/-- The size of a factor; one that does not exist counts as one of size 1. -/
def capacityOf (r : Rule) (f : Nat) : Nat := (r.sizeOf? f).getD 1

end Rule

/-- Each portion fits its factor, and fills it if a later factor of the dimension has axes.
The minor-most factor takes what is left, so nothing of its portion overflows. -/
def Filled (m : Mesh) (r : Rule) (want : Nat → Portion) : List Nat → Prop
  | [] => True
  | [f] => (want f).overflow = []
  | f :: g :: rest => (want f).Fits m (r.capacityOf f) ∧
      ((want f).Fills m (r.capacityOf f) ∨ ∀ k ∈ g :: rest, (want k).all = []) ∧
      Filled m r want (g :: rest)

/-- Going through the factors of a dimension with its axes, at each factor in question what is
left begins with the portion of the factor. The portion fits, and it fills the factor unless
nothing follows. -/
def Served (m : Mesh) (r : Rule) (want : Nat → Portion) (inQuestion : Nat → Prop) :
    List Nat → List AxisRef → Prop
  | [], _ => True
  | [f], l => inQuestion f →
      mergeAdjacent m l = mergeAdjacent m (want f).axes ∧ (want f).overflow = []
  | f :: g :: rest, l =>
      (inQuestion f → (want f).Fits m (r.capacityOf f) ∧ ∃ t, AllValid m t ∧
        mergeAdjacent m l = mergeAdjacent m ((want f).all ++ t) ∧
        ((want f).Fills m (r.capacityOf f) ∨ t = [])) ∧
      ∀ share, Share.take m (r.capacityOf f) l = .ok share →
        Served m r want inQuestion (g :: rest) share.rest

namespace TensorFactors

variable {m : Mesh} {r : Rule} {closed : Bool} {fs : List Nat} {l : List AxisRef}
  {entries : List (Nat × FactorSharding)}

theorem dealOut_cons_eq_ok {f g : Nat} {rest : List Nat}
    (h : dealOut m r closed (f :: g :: rest) l = .ok entries) :
    ∃ share others, Share.take m (r.capacityOf f) l = .ok share ∧
      dealOut m r closed (g :: rest) share.rest = .ok others ∧
      entries = (f, ⟨share.axes, closed, false, share.overflow⟩) :: others := by
  rw [dealOut] at h
  · cases hn : r.sizeOf? f with
    | none => rw [hn] at h; cases h
    | some n =>
      rw [hn] at h
      obtain ⟨share, hshare, h⟩ := bind_eq_ok_iff.1 h
      obtain ⟨others, hothers, h⟩ := bind_eq_ok_iff.1 h
      cases h
      exact ⟨share, others, by simpa [Rule.capacityOf, hn] using hshare, hothers, rfl⟩
  · simp

/-- The factors of a dimension share its axes. -/
theorem dealOut_spec (hl : AllValid m l) (h : dealOut m r closed fs l = .ok entries) :
    entries.map (·.1) = fs ∧ (∀ e ∈ entries, AllValid m (Portion.ofFactor e.2).all) ∧
      (fs ≠ [] → mergeAdjacent m (entries.flatMap fun e => (Portion.ofFactor e.2).all)
        = mergeAdjacent m l) := by
  induction fs generalizing l entries with
  | nil => cases h; simp
  | cons f rest ih =>
    cases rest with
    | nil => cases h; simpa [Portion.ofFactor, Portion.all] using hl
    | cons g rest =>
      obtain ⟨share, others, htake, hothers, rfl⟩ := dealOut_cons_eq_ok h
      obtain ⟨hjoin, hv⟩ := ((Share.take_eq_ok_iff hl).1 htake).joined hl
      rw [allValid_append] at hv
      obtain ⟨hkeys, hall, hrest⟩ := ih hv.2 hothers
      refine ⟨by simp [hkeys], ?_, fun _ => ?_⟩
      · simpa [Portion.ofFactor, Portion.all, hv.1] using hall
      · rw [List.flatMap_cons, ← hjoin]
        exact mergeAdjacent_append_congr rfl (hrest (by simp))

theorem exists_dealOut (hl : AllValid m l) (hf : ∀ f ∈ fs, f < r.factorCount) :
    ∃ entries, dealOut m r closed fs l = .ok entries := by
  induction fs generalizing l with
  | nil => exact ⟨_, rfl⟩
  | cons f rest ih =>
    cases rest with
    | nil => exact ⟨_, rfl⟩
    | cons g rest =>
      have hlt : f < r.factors.length := hf f (by simp)
      have hn : r.sizeOf? f = some r.factors[f].size := by
        simp [Rule.sizeOf?, List.getElem?_eq_getElem hlt]
      obtain ⟨share, hshare⟩ := Share.exists_takes hl r.factors[f].size
      have hv := (hshare.joined hl).2
      obtain ⟨others, hothers⟩ := ih (allValid_append.1 hv).2 fun k hk => hf k (by simp [hk])
      refine ⟨(f, ⟨share.axes, closed, false, share.overflow⟩) :: others, ?_⟩
      rw [dealOut, hn]
      · simp only [(Share.take_eq_ok_iff hl).2 hshare, bind, Except.bind, hothers]
        rfl
      · simp

/-- The factors of a dimension take the portions that were joined for them exactly if these
fill them. -/
theorem same_dealOut_iff {want : Nat → Portion} (hw : ∀ f ∈ fs, AllValid m (want f).all)
    (hl : l = mergeAdjacent m (fs.flatMap fun f => (want f).all))
    (h : dealOut m r closed fs l = .ok entries) :
    (∀ e ∈ entries, (want e.1).Same m (.ofFactor e.2)) ↔ Filled m r want fs := by
  induction fs generalizing l entries with
  | nil => cases h; simp [Filled]
  | cons f rest ih =>
    cases rest with
    | nil =>
      cases h
      simp only [List.flatMap_cons, List.flatMap_nil, List.append_nil] at hl
      simp only [List.mem_singleton, forall_eq, Filled, Portion.Same, Portion.ofFactor, hl,
        mergeAdjacent_mergeAdjacent, mergeAdjacent_nil, mergeAdjacent_eq_nil_iff,
        and_iff_right_iff_imp]
      intro ho
      rw [Portion.all, ho, List.append_nil]
    | cons g rest =>
      let tail := (g :: rest).flatMap fun f => (want f).all
      have hwf := hw f (by simp)
      have hwt : ∀ k ∈ g :: rest, AllValid m (want k).all := fun k hk => hw k (by simp [hk])
      have ht : AllValid m tail := fun a ha => by
        obtain ⟨k, hk, hak⟩ := List.mem_flatMap.1 ha
        exact hwt k hk a hak
      have hjoin : l = mergeAdjacent m ((want f).all ++ tail) := hl
      have hv : AllValid m l := hjoin ▸ (allValid_append.2 ⟨hwf, ht⟩).mergeAdjacent
      obtain ⟨⟨x, o, y⟩, others, htake, hothers, rfl⟩ := dealOut_cons_eq_ok h
      have htakes := (Share.take_eq_ok_iff hv).1 htake
      have hrest := (allValid_append.1 (htakes.joined hv).2).2
      have hsep := (htakes.separated hv (hjoin ▸ separated_mergeAdjacent _)).2.1
      have hstep := Portion.take_iff hwf ht (hjoin ▸ htake)
      have hnil : tail = [] ↔ ∀ k ∈ g :: rest, (want k).all = [] := List.flatMap_eq_nil_iff
      obtain ⟨hkeys, -, hparts⟩ := dealOut_spec hrest hothers
      rw [List.forall_mem_cons, Filled, ← hnil, ← and_assoc, ← hstep, and_assoc]
      refine and_congr_right fun hsame => ⟨fun hall => ?_, ?_⟩
      · have hy : mergeAdjacent m y = mergeAdjacent m tail := by
          have hmap : tail = others.flatMap fun e => (want e.1).all := by
            simp only [tail, ← hkeys, List.flatMap_map]
          rw [← hparts (by simp), hmap]
          exact mergeAdjacent_flatMap_congr fun e he => (hall e he).all_eq.symm
        exact ⟨hy, (ih hwt (by rw [← hsep.mergeAdjacent_eq]; exact hy) hothers).1 hall⟩
      · rintro ⟨hy, hfilled⟩
        exact (ih hwt (by rw [← hsep.mergeAdjacent_eq]; exact hy) hothers).2 hfilled

/-- Where the portions that were meant for the factors fill them, a factor that is meant to have no
axes is given none, also if the references of the dimension are not merged. -/
theorem all_dealOut_eq_nil {want : Nat → Portion} (hw : ∀ f ∈ fs, AllValid m (want f).all)
    (hv : AllValid m l)
    (hl : mergeAdjacent m l = mergeAdjacent m (fs.flatMap fun f => (want f).all))
    (hfilled : Filled m r want fs) (h : dealOut m r closed fs l = .ok entries) :
    ∀ e ∈ entries, (want e.1).all = [] → (Portion.ofFactor e.2).all = [] := by
  induction fs generalizing l entries with
  | nil => cases h; nofun
  | cons f rest ih =>
    cases rest with
    | nil =>
      cases h
      simp only [List.flatMap_cons, List.flatMap_nil, List.append_nil] at hl
      simp only [List.mem_singleton, forall_eq, Portion.ofFactor, Portion.all, List.append_nil]
      intro hnil
      rwa [Portion.all, hnil, mergeAdjacent_nil, mergeAdjacent_eq_nil_iff] at hl
    | cons g rest =>
      obtain ⟨⟨x, o, y⟩, others, htake, hothers, rfl⟩ := dealOut_cons_eq_ok h
      obtain ⟨hfit, hfill, hrest⟩ := hfilled
      rw [List.forall_mem_cons] at hw
      rw [List.flatMap_cons] at hl
      generalize htail : (g :: rest).flatMap (fun k => (want k).all) = tail at hl
      have ht : AllValid m tail := fun a ha => by
        obtain ⟨k, hk, hak⟩ := List.mem_flatMap.1 (htail ▸ ha)
        exact hw.2 k hk a hak
      have hnil : tail = [] ↔ ∀ k ∈ g :: rest, (want k).all = [] :=
        htail ▸ List.flatMap_eq_nil_iff
      rw [← hnil] at hfill
      have hy := (allValid_append.1 (((Share.take_eq_ok_iff hv).1 htake).joined hv).2).2
      obtain ⟨-, -, hparts⟩ := dealOut_spec hy hothers
      refine List.forall_mem_cons.2 ⟨fun hf => ?_, fun e he hwant => ?_⟩
      · rw [hf, List.nil_append] at hl
        obtain ⟨rfl, rfl⟩ := Portion.take_eq_nil hv hf hl hfill htake
        rfl
      · by_cases hrest' : y = []
        · subst hrest'
          have hall := hparts (List.cons_ne_nil g rest)
          rw [mergeAdjacent_nil, mergeAdjacent_eq_nil_iff, List.flatMap_eq_nil_iff] at hall
          exact hall e he
        · have hsame := Portion.mergeAdjacent_rest hw.1 ht hv hl hfit hfill htake hrest'
          rw [← htail] at hsame
          exact ih hw.2 hy hsame hrest hothers e he hwant

/-- The factors in question take the portions meant for them exactly if they are served. -/
theorem same_dealOut_iff_served {want : Nat → Portion} {inQuestion : Nat → Prop}
    (hw : ∀ f ∈ fs, AllValid m (want f).all) (hl : AllValid m l) (hs : Separated m l)
    (h : dealOut m r closed fs l = .ok entries) :
    (∀ e ∈ entries, inQuestion e.1 → (want e.1).Same m (.ofFactor e.2)) ↔
      Served m r want inQuestion fs l := by
  induction fs generalizing l entries with
  | nil => cases h; simp [Served]
  | cons f rest ih =>
    cases rest with
    | nil =>
      cases h
      simp only [List.mem_singleton, forall_eq, Served, Portion.Same, Portion.ofFactor,
        mergeAdjacent_nil, mergeAdjacent_eq_nil_iff]
      rw [eq_comm]
    | cons g rest =>
      have hwf := hw f (by simp)
      obtain ⟨⟨x, o, y⟩, others, htake, hothers, rfl⟩ := dealOut_cons_eq_ok h
      have htakes := (Share.take_eq_ok_iff hl).1 htake
      obtain ⟨hjoin, hv⟩ := htakes.joined hl
      have hy := (allValid_append.1 hv).2
      have hrest := ih (fun k hk => hw k (by simp [hk])) hy (htakes.separated hl hs).2.1 hothers
      rw [List.forall_mem_cons, hrest, Served]
      refine and_congr (imp_congr_right fun _ => ⟨fun hsame => ?_, ?_⟩) ?_
      · have hl' : mergeAdjacent m l = mergeAdjacent m ((want f).all ++ y) :=
          hjoin.symm.trans (mergeAdjacent_append_congr hsame.all_eq.symm rfl)
        rw [← hs.mergeAdjacent_eq, hl'] at htake
        obtain ⟨hfit, hfill⟩ := (Portion.take_iff hwf hy htake).1 ⟨hsame, rfl⟩
        exact ⟨hfit, y, hy, hl', hfill⟩
      · rintro ⟨hfit, t, ht, hl', hfill⟩
        rw [← hs.mergeAdjacent_eq, hl'] at htake
        exact ((Portion.take_iff hwf ht htake).2 ⟨hfit, hfill⟩).1
      · rw [htake]
        simp

section project

variable {mapping : Mapping} {s : Option TensorSharding} {t : TensorFactors}
  {fss : List (List Nat)} {dims : List DimSharding}

/-- The dimensions are valid if there is a sharding, and if there is none. -/
theorem allValid_getD_dims (hs : ∀ x ∈ s, x.ValidDims m) :
    ∀ d ∈ (s.map (·.dims)).getD [], AllValid m d.axes := by
  cases s with
  | none => simp
  | some s => exact hs s rfl

theorem allValid_head (hv : ∀ d ∈ dims, AllValid m d.axes) :
    AllValid m (dims.head?.getD (.ofAxes [] false)).axes := by
  cases dims with
  | nil => simp [DimSharding.ofAxes, AllValid]
  | cons d dims => exact hv d (by simp)

theorem dealOutDims_spec (hv : ∀ d ∈ dims, AllValid m d.axes)
    (h : dealOutDims m r fss dims = .ok entries) :
    entries.map (·.1) = fss.flatten ∧
      (∀ e ∈ entries, AllValid m (Portion.ofFactor e.2).all) ∧
      ∀ (i : Nat) (fs : List Nat) (d : DimSharding), fss[i]? = some fs → dims[i]? = some d →
        ∃ part, dealOut m r d.closed fs d.axes = .ok part ∧ part ⊆ entries := by
  induction fss generalizing dims entries with
  | nil => cases h; simp
  | cons fs fss ih =>
    obtain ⟨part, hpart, h⟩ := bind_eq_ok_iff.1 h
    obtain ⟨others, hothers, h⟩ := bind_eq_ok_iff.1 h
    cases h
    obtain ⟨hkeys, hvalid, -⟩ := dealOut_spec (allValid_head hv) hpart
    obtain ⟨hkeys', hvalid', hparts⟩ := ih (fun d hd => hv d (List.mem_of_mem_tail hd)) hothers
    refine ⟨by simp [hkeys, hkeys'], ?_, fun i fs' d hfs hd => ?_⟩
    · simp only [List.mem_append]
      rintro e (he | he)
      · exact hvalid e he
      · exact hvalid' e he
    · cases dims with
      | nil => simp at hd
      | cons d' dims =>
        cases i with
        | zero =>
          cases hfs
          cases hd
          exact ⟨part, hpart, List.subset_append_left ..⟩
        | succ i =>
          obtain ⟨part', hpart', hsub⟩ := hparts i fs' d (by simpa using hfs) (by simpa using hd)
          exact ⟨part', hpart', fun e he => List.mem_append_right _ (hsub he)⟩

theorem exists_dealOutDims (hv : ∀ d ∈ dims, AllValid m d.axes)
    (hf : ∀ f ∈ fss.flatten, f < r.factorCount) :
    ∃ entries, dealOutDims m r fss dims = .ok entries := by
  induction fss generalizing dims with
  | nil => exact ⟨_, rfl⟩
  | cons fs fss ih =>
    obtain ⟨part, hpart⟩ : ∃ part, dealOut m r (dims.head?.getD (.ofAxes [] false)).closed fs
        (dims.head?.getD (.ofAxes [] false)).axes = .ok part :=
      exists_dealOut (allValid_head hv) fun f hmem =>
        hf f (by rw [List.flatten_cons]; exact List.mem_append_left _ hmem)
    obtain ⟨others, hothers⟩ := ih (fun d hd => hv d (List.mem_of_mem_tail hd)) fun f hmem =>
      hf f (by rw [List.flatten_cons]; exact List.mem_append_right _ hmem)
    exact ⟨part ++ others, by simp only [dealOutDims, hpart, hothers, bind, Except.bind]; rfl⟩

/-- Each dimension is dealt out to its factors. -/
theorem factor?_project {s : TensorSharding} (hs : s.ValidDims m)
    (hn : mapping.dims.flatten.Nodup) (h : project m r mapping (some s) = .ok t) {i : Nat}
    {d : DimSharding} (hfs : mapping.dims[i]? = some fs) (hd : s.dims[i]? = some d) :
    ∃ part, dealOut m r d.closed fs d.axes = .ok part ∧
      ∀ e ∈ part, t.factor? e.1 = some e.2 := by
  obtain ⟨entries, hentries, h⟩ := bind_eq_ok_iff.1 h
  cases h
  obtain ⟨hkeys, -, hparts⟩ := dealOutDims_spec hs hentries
  obtain ⟨part, hpart, hsub⟩ := hparts i fs d hfs hd
  refine ⟨part, hpart, fun e he => ?_⟩
  rw [factor?, Sorted.find?_ofEntries (hkeys ▸ hn)]
  exact Sorted.find?_eq_some (hkeys ▸ hn) (hsub he)

/-- Every factor of a valid sharding has valid axes. -/
theorem exists_factor?_project {s : TensorSharding} (hs : s.Valid m)
    (hn : mapping.dims.flatten.Nodup) (h : project m r mapping (some s) = .ok t) {f : Nat}
    (hf : f ∈ mapping.dims.flatten) :
    ∃ x, t.factor? f = some x ∧ AllValid m (Portion.ofFactor x).all := by
  obtain ⟨entries, hentries, h⟩ := bind_eq_ok_iff.1 h
  cases h
  obtain ⟨hkeys, hvalid, -⟩ := dealOutDims_spec hs.allValid_dims hentries
  rw [← hkeys] at hf
  obtain ⟨⟨_, x⟩, hx, rfl⟩ := List.mem_map.1 hf
  refine ⟨x, ?_, hvalid _ hx⟩
  rw [factor?, Sorted.find?_ofEntries (hkeys ▸ hn)]
  exact Sorted.find?_eq_some (hkeys ▸ hn) hx

/-- Shardings can be projected onto the factors of a rule. -/
theorem exists_project (hs : ∀ x ∈ s, x.ValidDims m)
    (hf : ∀ f ∈ mapping.dims.flatten, f < r.factorCount) : ∃ t, project m r mapping s = .ok t := by
  obtain ⟨entries, hentries⟩ := exists_dealOutDims (allValid_getD_dims hs) hf
  exact ⟨_, by simp only [project, hentries, bind, Except.bind]; rfl⟩

end project

end TensorFactors

namespace Projection

variable {m : Mesh} {r : Rule} {mappings : List Mapping}
  {shardings : List (Option TensorSharding)} {ts : List TensorFactors}

theorem projectAll_eq_ok (h : projectAll m r mappings shardings = .ok ts) {i : Nat}
    {t : TensorFactors} : ts[i]? = some t ↔ ∃ mapping, mappings[i]? = some mapping ∧
      TensorFactors.project m r mapping (shardings[i]?.getD none) = .ok t := by
  induction mappings generalizing shardings ts i with
  | nil => cases h; simp
  | cons mapping mappings ih =>
    obtain ⟨first, hfirst, h⟩ := bind_eq_ok_iff.1 h
    obtain ⟨rest, hrest, h⟩ := bind_eq_ok_iff.1 h
    cases h
    cases i with
    | zero =>
      rw [List.head?_eq_getElem?] at hfirst
      simp [hfirst]
    | succ i =>
      have := ih hrest (i := i)
      rw [List.getElem?_tail] at this
      simpa using this

/-- The sharding of a tensor among those of the operands and results. -/
def shardingAt (shardings : Side → List (Option TensorSharding)) (t : TensorRef) :
    Option TensorSharding := (shardings t.side)[t.index]?.getD none

/-- Each tensor is projected by its mapping. -/
theorem tensor?_eq_some_iff {shardings : Side → List (Option TensorSharding)} {p : Projection}
    (h : ofShardings m r (shardings .operand) (shardings .result) = .ok p) {t : TensorRef}
    {x : TensorFactors} : p.tensor? t = some x ↔ ∃ mapping, r.mapping? t = some mapping ∧
      TensorFactors.project m r mapping (shardingAt shardings t) = .ok x := by
  obtain ⟨os, hos, h⟩ := bind_eq_ok_iff.1 h
  obtain ⟨rs, hrs, h⟩ := bind_eq_ok_iff.1 h
  cases h
  obtain ⟨side, i⟩ := t
  cases side with
  | operand => exact projectAll_eq_ok hos
  | result => exact projectAll_eq_ok hrs

theorem exists_projectAll (h : ∀ (i : Nat) (mapping : Mapping), mappings[i]? = some mapping →
      ∃ t, TensorFactors.project m r mapping (shardings[i]?.getD none) = .ok t) :
    ∃ ts, projectAll m r mappings shardings = .ok ts := by
  induction mappings generalizing shardings with
  | nil => exact ⟨_, rfl⟩
  | cons mapping mappings ih =>
    obtain ⟨first, hfirst⟩ := h 0 mapping rfl
    obtain ⟨rest, hrest⟩ : ∃ rest, projectAll m r mappings shardings.tail = .ok rest :=
      ih fun i mapping' hm => by
        rw [List.getElem?_tail]
        exact h (i + 1) mapping' (by simpa using hm)
    rw [← List.head?_eq_getElem?] at hfirst
    exact ⟨_, by simp only [projectAll, hfirst, hrest, bind, Except.bind]; rfl⟩

end Projection
end MeshSharding
