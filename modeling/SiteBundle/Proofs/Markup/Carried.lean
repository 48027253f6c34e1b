import SiteBundle.Proofs.Markup.Removing

/-!
# Stretches that an edit carries over whole

`Carries f scraps u a a'` says that the text `u` at offset `a` is carried to offset `a'` of the
result: its characters are kept side by side.  A stretch that stands in the text is carried exactly
when nothing is cut out of it and nothing is inserted strictly inside it (`carries_of_free`,
`free_of_carries`).  Stretches behind each other are carried to places behind each other
(`Carries.ordered`).
-/

namespace SiteBundle

open Text

variable {β : Type}

def Element.at (e : Element) (start : Nat) : Element := { e with start }

/-- the text at this offset is carried whole to that offset of the result -/
def Carries (f : β → Text) (scraps : List (Scrap β)) (u : Text) (a a' : Nat) : Prop :=
  ∃ front back, scraps = front ++ ((places a u).map (fun p => .kept p.1 p.2) ++ back) ∧
    size (front.flatMap (Scrap.text f)) = a'

theorem flatMap_text_kept (f : β → Text) (a : Nat) (u : Text) :
    ((places a u).map fun p => Scrap.kept p.1 p.2).flatMap (Scrap.text f) = u := by
  induction u generalizing a with
  | nil => rfl
  | cons c u ih => exact congrArg (c :: ·) (ih _)

theorem Carries.result {f : β → Text} {scraps : List (Scrap β)} {u : Text} {a a' : Nat}
    (h : Carries f scraps u a a') :
    ∃ front back, scraps.flatMap (Scrap.text f) = front ++ (u ++ back) ∧ size front = a' := by
  obtain ⟨front, back, rfl, hs⟩ := h
  refine ⟨front.flatMap (Scrap.text f), back.flatMap (Scrap.text f), ?_, hs⟩
  rw [List.flatMap_append, List.flatMap_append, flatMap_text_kept]

theorem mem_kept_of_mem {scraps : List (Scrap β)} {p : Nat × Char}
    (h : Scrap.kept p.1 p.2 ∈ scraps) : p ∈ scraps.filterMap Scrap.kept? :=
  List.mem_filterMap.mpr ⟨_, h, rfl⟩

/-- what stands behind another stretch is carried behind it -/
theorem Carries.ordered {f : β → Text} {scraps : List (Scrap β)}
    (hasc : (scraps.filterMap Scrap.kept?).Pairwise fun p q => p.1 < q.1) {u v : Text}
    {a a' b b' : Nat} (hu : Carries f scraps u a a') (hv : Carries f scraps v b b') (hne : u ≠ [])
    (hne' : v ≠ []) (h : a + size u ≤ b) : a' + size u ≤ b' := by
  obtain ⟨front, back, rfl, rfl⟩ := hu
  obtain ⟨front', back', hsplit, rfl⟩ := hv
  rw [← List.append_assoc] at hsplit
  rcases List.append_eq_append_iff.mp hsplit with ⟨m, hfront, _⟩ | ⟨m, hfront, hback⟩
  · rw [hfront, List.flatMap_append, List.flatMap_append, flatMap_text_kept, size_append,
      size_append]
    omega
  · cases m with
    | nil =>
      rw [List.append_nil] at hfront
      refine Nat.le_of_eq ?_
      rw [← hfront, List.flatMap_append, flatMap_text_kept, size_append]
    | cons s m =>
      -- then the first character of `v` would be kept before the last one of `u`
      obtain ⟨d, v', rfl⟩ := List.exists_cons_of_ne_nil hne'
      obtain ⟨c, u', rfl⟩ := List.exists_cons_of_ne_nil hne
      obtain ⟨rfl, _⟩ := List.cons.inj hback
      have hmem : Scrap.kept b d ∈
          front ++ (places a (c :: u')).map fun p => (.kept p.1 p.2 : Scrap β) := by
        rw [hfront]
        exact List.mem_append_right _ List.mem_cons_self
      rcases List.mem_append.mp hmem with hmem | hmem
      · rw [List.filterMap_append] at hasc
        have hfirst : (a, c) ∈ ((places a (c :: u')).map (fun p => (.kept p.1 p.2 : Scrap β)) ++
            back).filterMap Scrap.kept? :=
          mem_kept_of_mem (p := (a, c)) (List.mem_append_left _ List.mem_cons_self)
        have hlt := (List.pairwise_append.mp hasc).2.2 _ (mem_kept_of_mem (p := (b, d)) hmem) _ hfirst
        replace hlt : b < a := hlt
        omega
      · obtain ⟨p, hp, e⟩ := List.mem_map.mp hmem
        obtain ⟨hpb, _⟩ := Scrap.kept.inj e
        have hhigh := (bounds_of_mem_places hp).2
        omega

section
variable {cuts : List (Nat × Nat)} {inserts : List (Nat × β)} {t : Text} {x : Stretch}

/-- without edits inside it a stretch is carried -/
theorem carries_of_free (hx : x.Stands t) (f : β → Text)
    (hc : ∀ p ∈ places 0 t, x.Holds p.1 → Draft.covered cuts p.1 = false)
    (hi : ∀ i ∈ inserts, ¬ (x.start < i.1 ∧ i.1 < x.stop)) :
    ∃ a', Carries f (Draft.scrapsFrom cuts inserts 0 t) x.text x.start a' := by
  obtain ⟨front, back, ht, hs⟩ := hx.placed
  obtain ⟨c, rest, htext, _⟩ := hx.begins
  have hplaces : ∀ p ∈ places (x.start + c.utf8Size) rest, p ∈ places x.start x.text := by
    intro p hp
    rw [htext, places_cons]
    exact List.mem_cons_of_mem _ hp
  have hfirst : Draft.covered cuts x.start = false := by
    have hp : (x.start, c) ∈ places x.start x.text := by
      rw [htext]
      exact List.mem_cons_self
    obtain ⟨hp, hin⟩ := hx.mem_places.mp hp
    exact hc _ hp hin
  have hrest : Draft.scrapsUpto cuts inserts (x.start + c.utf8Size) rest =
      (places (x.start + c.utf8Size) rest).map fun p => .kept p.1 p.2 := by
    refine Draft.scrapsUpto_of_free cuts inserts (fun p hp => ?_) fun p hp => ?_
    · obtain ⟨hp, hin⟩ := hx.mem_places.mp (hplaces p hp)
      exact hc p hp hin
    · have hlow := (bounds_of_mem_places hp).1
      have hpos := c.utf8Size_pos
      obtain ⟨_, hin⟩ := hx.mem_places.mp (hplaces p hp)
      unfold Draft.addedAt
      rw [List.filter_eq_nil_iff.mpr fun i hmem h => ?_]
      · rfl
      · have hat : i.1 = p.1 := beq_iff_eq.mp h
        exact hi i hmem ⟨by omega, hat ▸ hin.2⟩
  have hsplit : t = front ++ (c :: (rest ++ back)) := by
    rw [ht, htext]
    rfl
  refine ⟨_, Draft.scrapsUpto cuts inserts 0 front ++ Draft.addedAt inserts x.start,
    Draft.scrapsFrom cuts inserts (x.start + c.utf8Size + size rest) back, ?_, rfl⟩
  rw [hsplit, Draft.scrapsFrom_append, Nat.zero_add, hs, Draft.scrapsFrom_cons, hfirst,
    Draft.scrapsFrom_append, hrest, htext, places_cons]
  simp

/-- a stretch that is carried has no edit inside it, when the inserts tell their places -/
theorem free_of_carries_place {place : β → Nat} (hplace : ∀ i ∈ inserts, place i.2 = i.1)
    (hbound : ∀ i ∈ inserts, IsBoundary t i.1) (hx : x.Stands t) {f : β → Text} {a' : Nat}
    (h : Carries f (Draft.scrapsFrom cuts inserts 0 t) x.text x.start a') :
    (∀ p ∈ places 0 t, x.Holds p.1 → Draft.covered cuts p.1 = false) ∧
      ∀ i ∈ inserts, ¬ (x.start < i.1 ∧ i.1 < x.stop) := by
  obtain ⟨front, back, hsplit, _⟩ := h
  have hin : ∀ {p}, p ∈ places 0 t → x.Holds p.1 → Scrap.kept p.1 p.2 ∈
      (places x.start x.text).map fun p => (.kept p.1 p.2 : Scrap β) := fun {p} hp ho =>
    List.mem_map.mpr ⟨p, hx.mem_places.mpr ⟨hp, ho⟩, rfl⟩
  constructor
  · intro p hp ho
    have hmem : p ∈ (Draft.scrapsFrom cuts inserts 0 t).filterMap Scrap.kept? := by
      rw [hsplit]
      exact List.mem_filterMap.mpr
        ⟨_, List.mem_append_right _ (List.mem_append_left _ (hin hp ho)), rfl⟩
    rw [Draft.kept_scrapsFrom] at hmem
    simpa using (List.mem_filter.mp hmem).2
  · -- an insert before the first character of the stretch goes to its start at most, one behind the
    -- last character goes behind it
    rintro i hi ⟨h1, h2⟩
    obtain ⟨c, hc, _⟩ := hx.first
    have hfirst := hin hc ⟨Nat.le_refl _, hx.start_lt_stop⟩
    have hranks := Draft.pairwise_rank_scrapsFrom cuts inserts hplace 0 t
    have hadded : .added i.2 ∈ Draft.scrapsFrom cuts inserts 0 t := by
      have hmem := (Draft.added_scrapsFrom cuts inserts t hbound).mem_iff.mpr
        (List.mem_map_of_mem hi)
      obtain ⟨x, hx, hb⟩ := List.mem_filterMap.mp hmem
      cases x with
      | kept o c => cases hb
      | added b =>
        cases hb
        exact hx
    rw [hsplit] at hranks hadded
    obtain ⟨_, hbehind, hbefore⟩ := List.pairwise_append.mp hranks
    have hi' := hplace i hi
    rcases List.mem_append.mp hadded with hadded | hadded
    · have hr : 2 * place i.2 ≤ 2 * x.start + 1 :=
        hbefore _ hadded _ (List.mem_append_left _ hfirst)
      omega
    · rcases List.mem_append.mp hadded with hadded | hadded
      · obtain ⟨_, _, hb⟩ := List.mem_map.mp hadded
        cases hb
      · -- a boundary inside the stretch is one of its characters or before its last one
        obtain ⟨l, c, hl, hlin, hmax, _⟩ := hx.last
        have hlast := hin hl hlin
        have hr : 2 * l + 1 ≤ 2 * place i.2 :=
          (List.pairwise_append.mp hbehind).2.2 _ hlast _ hadded
        obtain ⟨d, hd⟩ := exists_mem_places_of_isBoundary (hbound i hi)
          (Nat.lt_of_lt_of_le h2 hx.stop_le_size)
        have hle := hmax _ hd ⟨Nat.le_of_lt h1, h2⟩
        replace hle : i.1 ≤ l := hle
        omega

theorem eq_kept_of_map {γ : Type} {g : β → γ} {l : List (Scrap β)} {ps : List (Nat × Char)}
    (h : l.map (Scrap.map g) = ps.map fun p => .kept p.1 p.2) :
    l = ps.map fun p => .kept p.1 p.2 := by
  induction ps generalizing l with
  | nil => exact List.map_eq_nil_iff.mp h
  | cons p ps ih =>
    cases l with
    | nil => cases h
    | cons x l =>
      obtain ⟨hx, hl⟩ := List.cons.inj h
      cases x with
      | kept o c =>
        obtain ⟨rfl, rfl⟩ := Scrap.kept.inj hx
        exact congrArg (Scrap.kept p.1 p.2 :: ·) (ih hl)
      | added b => cases hx

/-- whether something is carried does not depend on what the inserts are -/
theorem Carries.of_map {γ : Type} {g : β → γ} {f : γ → Text} {scraps : List (Scrap β)} {u : Text}
    {a a' : Nat} (h : Carries f (scraps.map (Scrap.map g)) u a a') :
    ∃ a', Carries (fun b => f (g b)) scraps u a a' := by
  obtain ⟨front, back, hsplit, _⟩ := h
  obtain ⟨l, rest, rfl, _, hrest⟩ := List.map_eq_append_iff.mp hsplit
  obtain ⟨m, r, rfl, hm, _⟩ := List.map_eq_append_iff.mp hrest
  exact ⟨_, l, r, by rw [eq_kept_of_map hm], rfl⟩

/-- a stretch that is carried has no edit inside it -/
theorem free_of_carries (hbound : ∀ i ∈ inserts, IsBoundary t i.1) (hx : x.Stands t)
    {f : β → Text} {a' : Nat}
    (h : Carries f (Draft.scrapsFrom cuts inserts 0 t) x.text x.start a') :
    (∀ p ∈ places 0 t, x.Holds p.1 → Draft.covered cuts p.1 = false) ∧
      ∀ i ∈ inserts, ¬ (x.start < i.1 ∧ i.1 < x.stop) := by
  -- inserts that know their places
  have hmap : inserts = (inserts.map fun i => (i.1, i)).map fun j => (j.1, j.2.2) := by
    rw [List.map_map]
    exact (List.map_id' inserts).symm
  rw [hmap, Draft.scrapsFrom_map] at h
  obtain ⟨a', h⟩ := h.of_map
  have hplace : ∀ j ∈ inserts.map fun i => (i.1, i), Prod.fst j.2 = j.1 := by
    intro j hj
    obtain ⟨i, _, rfl⟩ := List.mem_map.mp hj
    rfl
  have hbound' : ∀ j ∈ inserts.map fun i => (i.1, i), IsBoundary t j.1 := by
    intro j hj
    obtain ⟨i, hmem, rfl⟩ := List.mem_map.mp hj
    exact hbound i hmem
  obtain ⟨hc, hi⟩ := free_of_carries_place hplace hbound' hx h
  exact ⟨hc, fun i hmem => hi (i.1, i) (List.mem_map_of_mem hmem)⟩

end

namespace Draft

/-- the draft carries the text at one offset of its base whole to the other offset of its result -/
def Carries (d : Draft) (u : Text) (a a' : Nat) : Prop := SiteBundle.Carries id d.scraps u a a'

section
variable {t : Text} {edits : List Edit}

theorem scraps_plan : (plan t edits).scraps =
    scrapsFrom (plan t edits).cuts (plan t edits).inserts 0 t := by
  unfold scraps
  rw [base_plan]

theorem ascending_kept_plan :
    ((plan t edits).scraps.filterMap Scrap.kept?).Pairwise fun p q => p.1 < q.1 := by
  rw [scraps_plan, kept_scrapsFrom]
  exact (pairwise_places 0 t).filter _

variable (fits : ∀ e ∈ edits, e.Fits t)
include fits

/-- a stretch is carried exactly when no removed element meets it and nothing is inserted strictly
inside it -/
theorem plan_carries_iff {x : Stretch} (hx : x.Stands t) {elements : List Element}
    (hrem : Removes t elements (covered (plan t edits).cuts)) :
    (∃ a', (plan t edits).Carries x.text x.start a') ↔
      (∀ m ∈ elements, ¬ x.Meets m) ∧
        ∀ i ∈ (plan t edits).inserts, ¬ (x.start < i.1 ∧ i.1 < x.stop) := by
  unfold Draft.Carries
  rw [← hrem.free_iff hx, scraps_plan]
  constructor
  · rintro ⟨a', h⟩
    exact free_of_carries (fun i hi => boundary_inserts_plan fits hi) hx h
  · rintro ⟨hc, hi⟩
    exact carries_of_free hx id hc hi

/-- what is carried is in the result at its new offset -/
theorem append_of_carries {v : Text} {a a' : Nat} (h : (plan t edits).Carries v a a') {u : Text}
    (hu : (plan t edits).result? = some u) : ∃ front back, u = front ++ (v ++ back) ∧
      size front = a' := by
  obtain ⟨front, back, hres, hs⟩ := SiteBundle.Carries.result h
  rw [result?_plan_eq_walk fits, walk_eq_scraps, hres] at hu
  exact ⟨front, back, (Option.some.inj hu).symm, hs⟩

/-- an element that is carried stands in the result -/
theorem stands_of_carries {e : Element} (he : e.Stands t) {a' : Nat}
    (h : (plan t edits).Carries e.text e.start a') {u : Text}
    (hu : (plan t edits).result? = some u) : (e.at a').Stands u :=
  ⟨append_of_carries fits h hu, he.bracketed⟩

/-- what is carried by a plan that only removes stands in the result as it stood before -/
theorem stands_at_of_carries (hnone : (plan t edits).inserts = []) {x : Stretch} (hx : x.Stands t)
    {a : Nat} (h : (plan t edits).Carries x.text x.start a) {u : Text}
    (hu : (plan t edits).result? = some u) : (x.at a).Stands u := by
  refine ⟨append_of_carries fits h hu, hx.begins, ?_⟩
  obtain ⟨r, c, htext, hc | hend⟩ := hx.ends
  · exact ⟨r, c, htext, .inl hc⟩
  · refine ⟨r, c, htext, .inr ?_⟩
    have hasc : ((plan t edits).scraps.filterMap Scrap.kept?).Pairwise fun p q => p.1 < q.1 :=
      ascending_kept_plan
    obtain ⟨front, back, hsplit, hs⟩ := h
    -- nothing is kept behind the end of the text, and nothing is added
    have hback : back = [] := by
      refine List.eq_nil_iff_forall_not_mem.mpr fun s hs => ?_
      have hmem : s ∈ (plan t edits).scraps := by
        rw [hsplit]
        exact List.mem_append_right _ (List.mem_append_right _ hs)
      cases s with
      | added b =>
        rw [scraps_plan, hnone] at hmem
        have hadd : b ∈ (scrapsFrom (plan t edits).cuts ([] : List (Nat × Text)) 0 t).filterMap
            Scrap.added? := List.mem_filterMap.mpr ⟨_, hmem, rfl⟩
        rw [(added_scrapsFrom _ _ t fun _ h => absurd h List.not_mem_nil).mem_iff] at hadd
        exact absurd hadd List.not_mem_nil
      | kept o d =>
        obtain ⟨l, e, hl, hin, hmax, _⟩ := hx.last
        have hlast : Scrap.kept l e ∈ (places x.start x.text).map fun p =>
            (.kept p.1 p.2 : Scrap Text) :=
          List.mem_map.mpr ⟨(l, e), hx.mem_places.mpr ⟨hl, hin⟩, rfl⟩
        rw [hsplit, List.filterMap_append, List.filterMap_append] at hasc
        have hlt : l < o := (List.pairwise_append.mp (List.pairwise_append.mp hasc).2.1).2.2
          _ (mem_kept_of_mem (p := (l, e)) hlast) _ (mem_kept_of_mem (p := (o, d)) hs)
        have hkept : (o, d) ∈ (plan t edits).scraps.filterMap Scrap.kept? :=
          mem_kept_of_mem (p := (o, d)) hmem
        rw [scraps_plan, kept_scrapsFrom] at hkept
        have hplace := (List.mem_filter.mp hkept).1
        have hsize := (bounds_of_mem_places hplace).2
        have hle := hmax _ hplace ⟨by show x.start ≤ o; have := hin.1; omega, by
          show o < x.stop
          rw [hend]
          replace hsize : o < 0 + size t := hsize
          omega⟩
        replace hle : o ≤ l := hle
        omega
    have hres : u = front.flatMap (Scrap.text id) ++ x.text := by
      rw [result?_plan_eq_walk fits, walk_eq_scraps, hsplit, hback, List.append_nil,
        List.flatMap_append, flatMap_text_kept] at hu
      exact (Option.some.inj hu).symm
    show a + size x.text = size u
    rw [hres, size_append, hs]

end
end Draft
end SiteBundle
