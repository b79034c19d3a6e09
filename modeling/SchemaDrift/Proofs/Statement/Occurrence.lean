import SchemaDrift.Proofs.Statement.Standing

namespace SchemaDrift.Keyword

/-!
# Where keywords stand

A keyword stands alone where the text in front of it ends with an edge and the text behind it starts
with one. Two keywords that stand alone in one text stand in the same place or do not touch each
other.
-/

variable {keyword k k' a a' b b' m r s t z : Text} {keywords : List Text} {before : Option Char}

/-- Behind a keyword in a text that ends with an edge, an edge stays one. -/
theorem isEdge_head?_of_getLast? (hk : IsSolid k) (h : isEdge (a ++ (k ++ b)).getLast? = true)
    (hb : isEdge b.head? = true) (r : Text) : isEdge (b ++ r).head? = true := by
  cases b with
  | nil =>
    obtain ⟨v, e, rfl⟩ := List.eq_nil_or_concat' k |>.resolve_left hk.1
    rw [List.append_nil, ← List.append_assoc, List.getLast?_concat, hk.2 e (by simp)] at h
    cases h
  | cons c b => exact hb

/-- Behind a keyword that stands alone, an edge is the edge of what remains of the text. -/
theorem isEdge_head?_append (hb : isEdge b.head? = true) (h : b = m ++ r) :
    isEdge m.head? = true := by
  cases m with
  | nil => rfl
  | cons c m => rwa [h] at hb

/-! ## Two occurrences -/

/-- A keyword in front of what ends with an edge stands in it. -/
theorem exists_append_of_isEdge (hk : IsSolid k) (h : k ++ b = z ++ r) (hz : z ≠ [])
    (he : isEdge z.getLast? = true) : ∃ m, z = k ++ m ∧ b = m ++ r := by
  rcases List.append_eq_append_iff.mp h with ⟨m, hz, hb⟩ | ⟨m, hkm, -⟩
  · exact ⟨m, hz, hb⟩
  · cases m with
    | nil => exact ⟨[], by simpa using hkm.symm, by simp_all⟩
    | cons c m =>
      -- The text would end inside of the keyword.
      obtain ⟨v, e, rfl⟩ := List.eq_nil_or_concat' z |>.resolve_left hz
      rw [List.getLast?_concat, hk.2 e (by simp [hkm])] at he
      cases he

theorem eq_of_isEdge (hk : IsSolid k) (hk' : IsSolid k') (h : k ++ b = k' ++ b')
    (hb : isEdge b.head? = true) (hb' : isEdge b'.head? = true) : k = k' ∧ b = b' := by
  rcases List.append_eq_append_iff.mp h with ⟨m, hm, hr⟩ | ⟨m, hm, hr⟩ <;> cases m with
  | nil => simp_all
  | cons c m =>
    have := hk.2 c
    have := hk'.2 c
    simp_all

/-- Two keywords that stand alone are one, or one of them stands in front of the other. -/
theorem stands_cases (hk : IsSolid k) (hk' : IsSolid k') (h : a ++ (k ++ b) = a' ++ (k' ++ b'))
    (ha : isEdge a.getLast? = true) (hb : isEdge b.head? = true) (ha' : isEdge a'.getLast? = true)
    (hb' : isEdge b'.head? = true) :
    (a = a' ∧ k = k' ∧ b = b') ∨
      (∃ m, a' = a ++ (k ++ m) ∧ b = m ++ (k' ++ b')) ∨
      ∃ m, a = a' ++ (k' ++ m) ∧ b' = m ++ (k ++ b) := by
  rcases List.append_eq_append_iff.mp h with ⟨z, hz, hr⟩ | ⟨z, hz, hr⟩ <;> by_cases hne : z = []
  · rw [hne, List.append_nil] at hz
    rw [hne, List.nil_append] at hr
    exact .inl ⟨hz.symm, eq_of_isEdge hk hk' hr hb hb'⟩
  · have edge : isEdge z.getLast? = true := by rwa [hz, List.getLast?_append_of_ne_nil _ hne] at ha'
    obtain ⟨m, rfl, hm⟩ := exists_append_of_isEdge hk hr hne edge
    exact .inr (.inl ⟨m, hz, hm⟩)
  · rw [hne, List.append_nil] at hz
    rw [hne, List.nil_append] at hr
    exact .inl ⟨hz, eq_of_isEdge hk hk' hr.symm hb hb'⟩
  · have edge : isEdge z.getLast? = true := by rwa [hz, List.getLast?_append_of_ne_nil _ hne] at ha
    obtain ⟨m, rfl, hm⟩ := exists_append_of_isEdge hk' hr hne edge
    exact .inr (.inr ⟨m, hz, hm⟩)

/-! ## The first occurrence -/

theorem getLast?_cons_or (c : Char) (t : Text) (before : Option Char) :
    (c :: t).getLast?.or before = t.getLast?.or (some c) := by
  rcases List.eq_nil_or_concat' t with rfl | ⟨t, d, rfl⟩
  · rfl
  · rw [← List.cons_append, List.getLast?_concat, List.getLast?_concat]
    rfl

theorem edges_of_standing? (h : standing? keyword before t = some r) :
    isEdge before = true ∧ t = keyword ++ r ∧ isEdge r.head? = true := by
  have ht := append_of_standing? h
  unfold standing? at h
  split at h
  · rename_i hb
    exact ⟨hb, ht, (Option.filter_eq_some_iff.mp h).2⟩
  · cases h

theorem edges_of_cut? (h : cut? keyword before t = some (a, b)) :
    t = a ++ (keyword ++ b) ∧ isEdge (a.getLast?.or before) = true ∧ isEdge b.head? = true := by
  induction t generalizing before a with
  | nil => cases h
  | cons c t ih =>
    unfold cut? at h
    split at h
    · rename_i r hr
      cases h
      obtain ⟨hbefore, ht, hb⟩ := edges_of_standing? hr
      exact ⟨ht, hbefore, hb⟩
    · obtain ⟨⟨a, _⟩, hcut, he⟩ := Option.map_eq_some_iff.mp h
      cases he
      obtain ⟨ht, ha, hb⟩ := ih hcut
      exact ⟨congrArg (c :: ·) ht, by rwa [getLast?_cons_or], hb⟩

theorem exists_cut?_of_stands (hk : IsSolid k) (ha : isEdge (a.getLast?.or before) = true)
    (hb : isEdge b.head? = true) :
    ∃ x y, cut? k before (a ++ (k ++ b)) = some (x, y) ∧ x <+: a := by
  induction a generalizing before with
  | nil => exact ⟨[], b, cut?_self hk ha hb, List.prefix_refl []⟩
  | cons c a ih =>
    rw [List.cons_append, cut?]
    cases hs : standing? k before (c :: (a ++ (k ++ b))) with
    | some r => exact ⟨[], r, rfl, List.nil_prefix⟩
    | none =>
      rw [getLast?_cons_or] at ha
      obtain ⟨x, y, hcut, hx⟩ := ih ha
      exact ⟨c :: x, y, by rw [hcut]; rfl, List.cons_prefix_cons.mpr ⟨rfl, hx⟩⟩

/-- Where the keyword stands alone, the text is cut there or before. -/
theorem exists_cut?_of_isEdge (hk : IsSolid k) (ha : isEdge a.getLast? = true)
    (hb : isEdge b.head? = true) :
    ∃ x y, cut? k none (a ++ (k ++ b)) = some (x, y) ∧ x <+: a :=
  exists_cut?_of_stands hk (by rwa [Option.or_none]) hb

theorem not_free_iff (hk : IsSolid k) : ¬ Free k t ↔
    ∃ a b, t = a ++ (k ++ b) ∧ isEdge a.getLast? = true ∧ isEdge b.head? = true := by
  rw [free_iff]
  constructor
  · intro h
    obtain ⟨⟨a, b⟩, hcut⟩ := Option.ne_none_iff_exists'.mp h
    obtain ⟨ht, ha, hb⟩ := edges_of_cut? hcut
    exact ⟨a, b, ht, by rwa [Option.or_none] at ha, hb⟩
  · rintro ⟨a, b, rfl, ha, hb⟩ hnone
    obtain ⟨x, y, hcut, -⟩ := exists_cut?_of_isEdge hk ha hb
    rw [hnone] at hcut
    cases hcut

/-- A text is cut where the keyword stands alone for the first time. -/
theorem cut?_eq_some_iff (hk : IsSolid k) : cut? k none t = some (a, b) ↔
    t = a ++ (k ++ b) ∧ Free k a ∧ isEdge a.getLast? = true ∧ isEdge b.head? = true := by
  constructor
  · intro h
    obtain ⟨rfl, ha, hb⟩ := edges_of_cut? h
    rw [Option.or_none] at ha
    refine ⟨rfl, by_contra fun hfree => ?_, ha, hb⟩
    obtain ⟨x, y, rfl, hx, hy⟩ := (not_free_iff hk).mp hfree
    obtain ⟨x', y', hcut, hx'⟩ :=
      exists_cut?_of_isEdge hk hx (isEdge_head?_of_getLast? hk ha hy (k ++ b))
    rw [List.append_assoc, List.append_assoc, hcut] at h
    cases h
    have := hx'.length_le
    have := List.length_pos_of_ne_nil hk.1
    simp only [List.length_append] at *
    omega
  · rintro ⟨rfl, hfree, ha, hb⟩
    obtain ⟨x, y, hcut, hx⟩ := exists_cut?_of_isEdge hk ha hb
    obtain ⟨he, hx', hy⟩ := edges_of_cut? hcut
    rw [Option.or_none] at hx'
    rcases stands_cases hk hk he ha hb hx' hy with ⟨rfl, -, rfl⟩ | ⟨m, rfl, -⟩ | ⟨m, rfl, rfl⟩
    · exact hcut
    · have := hx.length_le
      have := List.length_pos_of_ne_nil hk.1
      simp only [List.length_append] at *
      omega
    · exact absurd hfree ((not_free_iff hk).mpr ⟨x, m, rfl, hx', isEdge_head?_append hy rfl⟩)

/-! ## The text up to an occurrence -/

theorem upTo_prefix_of_stands (hm : k ∈ keywords) (hk : IsSolid k)
    (ha : isEdge (a.getLast?.or before) = true) (hb : isEdge b.head? = true) :
    upTo keywords before (a ++ (k ++ b)) <+: a := by
  induction a generalizing before with
  | nil =>
    have nothing : upTo keywords before (k ++ b) = [] := upTo_self hk hm ha hb
    exact List.prefix_nil.mpr nothing
  | cons c a ih =>
    rw [List.cons_append, upTo]
    split
    · exact List.nil_prefix
    · rw [getLast?_cons_or] at ha
      exact List.cons_prefix_cons.mpr ⟨rfl, ih ha⟩

/-- The text ends where a keyword stands alone, or nothing is left behind it. -/
theorem exists_upTo_append (keywords : List Text) (before : Option Char) (t : Text) :
    t = upTo keywords before t ∨ ∃ k ∈ keywords, ∃ b, t = upTo keywords before t ++ (k ++ b) ∧
      isEdge ((upTo keywords before t).getLast?.or before) = true ∧ isEdge b.head? = true := by
  induction t generalizing before with
  | nil => exact .inl rfl
  | cons c t ih =>
    rw [upTo]
    split
    · rename_i h
      obtain ⟨k, hm, hs⟩ := List.any_eq_true.mp h
      obtain ⟨b, hb⟩ := Option.isSome_iff_exists.mp hs
      obtain ⟨hbefore, ht, hedge⟩ := edges_of_standing? hb
      exact .inr ⟨k, hm, b, ht, hbefore, hedge⟩
    · rcases ih (some c) with h | ⟨k, hm, b, ht, ha, hb⟩
      · exact .inl (congrArg (c :: ·) h)
      · exact .inr ⟨k, hm, b, congrArg (c :: ·) ht, by rwa [getLast?_cons_or], hb⟩

/-- What stands alone in the text up to the keywords stands alone in the whole text. -/
theorem exists_of_upTo_eq (hk : IsSolid k) (h : upTo keywords none t = a ++ (k ++ b))
    (hb : isEdge b.head? = true) :
    ∃ s, t = a ++ (k ++ (b ++ s)) ∧ isEdge (b ++ s).head? = true := by
  rcases exists_upTo_append keywords none t with ht | ⟨k', -, b', ht, hlast, -⟩
  · exact ⟨[], by rw [List.append_nil, ← h, ← ht], by rwa [List.append_nil]⟩
  · rw [Option.or_none, h] at hlast
    exact ⟨k' ++ b', by rw [ht, h]; simp only [List.append_assoc],
      isEdge_head?_of_getLast? hk hlast hb _⟩

/-- None of the keywords stands alone in the text up to them. -/
theorem free_upTo (hm : k ∈ keywords) (hk : IsSolid k) (t : Text) :
    Free k (upTo keywords none t) := by
  by_contra hfree
  obtain ⟨a, b, hu, ha, hb⟩ := (not_free_iff hk).mp hfree
  obtain ⟨s, rfl, hs⟩ := exists_of_upTo_eq hk hu hb
  have front : isEdge (a.getLast?.or none) = true := by rwa [Option.or_none]
  have short := (upTo_prefix_of_stands hm hk front hs).length_le
  have := List.length_pos_of_ne_nil hk.1
  rw [hu] at short
  simp only [List.length_append] at short
  omega

/-- A word that ends nothing and stands in front of all that does is left in the text. -/
theorem exists_upTo_of_stands (hk : ∀ k ∈ keywords, IsSolid k) (hs : IsSolid k) (hm : k ∉ keywords)
    (hfree : ∀ k ∈ keywords, Free k a) (ha : isEdge a.getLast? = true)
    (hb : isEdge b.head? = true) :
    ∃ m, upTo keywords none (a ++ (k ++ b)) = a ++ (k ++ m) ∧ isEdge m.head? = true := by
  rcases exists_upTo_append keywords none (a ++ (k ++ b)) with h | ⟨k', hm', b', h, hu, hb'⟩
  · exact ⟨b, h.symm, hb⟩
  · rw [Option.or_none] at hu
    rcases stands_cases hs (hk k' hm') h ha hb hu hb' with ⟨-, rfl, -⟩ |
    ⟨m, he, hbm⟩ | ⟨m, ha', hbm⟩
    · exact absurd hm' hm
    · exact ⟨m, he, isEdge_head?_append hb hbm⟩
    · exact absurd (hfree k' hm')
        ((not_free_iff (hk k' hm')).mpr ⟨_, m, ha', hu, isEdge_head?_append hb' hbm⟩)

/-! ## Parts of a text -/

theorem free_of_append (hk : IsSolid k) (ha : isEdge a.getLast? = true) (h : Free k (a ++ r)) :
    Free k a := by
  by_contra hfree
  obtain ⟨x, y, rfl, hx, hy⟩ := (not_free_iff hk).mp hfree
  refine (not_free_iff hk).mpr ⟨x, y ++ r, ?_, hx, isEdge_head?_of_getLast? hk ha hy r⟩ h
  simp only [List.append_assoc]

theorem cut?_edges_append (hk : IsSolid k) (hr : ∀ c ∈ r, isEdge (some c) = true) (t : Text) :
    cut? k none (r ++ t) = (cut? k none t).map fun cut => (r ++ cut.1, cut.2) := by
  induction r with
  | nil => simp
  | cons c r ih =>
    rw [List.cons_append, cut?_cons_edge hk (hr c List.mem_cons_self),
      ih fun d hd => hr d (List.mem_cons_of_mem c hd), Option.map_map]
    rfl

theorem split_edges_append (hk : IsSolid k) (hr : ∀ c ∈ r, isEdge (some c) = true) (t : Text) :
    split k 0 none (r ++ t) = Text.prepend r (split k 0 none t) := by
  induction r with
  | nil => exact (Text.prepend_nil (split_ne_nil k 0 none t)).symm
  | cons c r ih =>
    rw [List.cons_append, split_cons_edge hk (hr c List.mem_cons_self),
      ih fun d hd => hr d (List.mem_cons_of_mem c hd)]
    cases split k 0 none t <;> rfl

/-- Edges between two texts make no keyword. -/
theorem free_joined (hk : IsSolid k) (ha : Free k a) (hne : r ≠ [])
    (hr : ∀ c ∈ r, isEdge (some c) = true) (hb : Free k b) : Free k (a ++ (r ++ b)) := by
  have head : isEdge (r ++ b).head? = true := by
    obtain ⟨c, r, rfl⟩ := List.exists_cons_of_ne_nil hne
    exact hr c List.mem_cons_self
  rw [free_iff, cut?_append hk (free_iff.mp ha) head, cut?_edges_append hk hr, free_iff.mp hb]
  rfl

/-- Edges around a text hide no keyword in it and make none. -/
theorem free_surrounded (hk : IsSolid k) (hr : ∀ c ∈ r, isEdge (some c) = true)
    (hs : ∀ c ∈ s, isEdge (some c) = true) : Free k (r ++ (t ++ s)) ↔ Free k t := by
  have head : isEdge s.head? = true := by
    cases s with
    | nil => rfl
    | cons c s => exact hs c List.mem_cons_self
  have tail : cut? k none s = none := by
    have h := cut?_edges_append hk hs []
    rwa [List.append_nil] at h
  rw [free_iff, cut?_edges_append hk hr, Option.map_eq_none_iff]
  constructor
  · rw [← free_iff]
    refine not_imp_not.mp fun h => ?_
    obtain ⟨a, b, rfl, ha, hb⟩ := (not_free_iff hk).mp h
    refine (not_free_iff hk).mpr ⟨a, b ++ s, by simp only [List.append_assoc], ha, ?_⟩
    cases b with
    | nil => exact head
    | cons c b => exact hb
  · intro h
    rw [cut?_append hk (free_iff.mp h) head, tail]
    rfl

end SchemaDrift.Keyword
