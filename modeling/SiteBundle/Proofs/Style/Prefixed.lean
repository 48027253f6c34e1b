import SiteBundle.Proofs.Style.Strings
import SiteBundle.Style.Vendor

/-!
# Strings of a prefixed stylesheet

A declaration that gets copies is told by its lead, the property and the rest through the end of the
value (`of_ledDeclaration?`), wherever the text looks like one.  Each copy begins as the declaration does
and ends with a semicolon.  So if the declaration ends in what it begins in, and that is no string
(`DeclarationsOutside`), the copies are stretches that leave the reading of the rest alone, and their
strings are those of the declaration (`styleStrings_copies`).  Along the search, the sheet with the copies
is read on as the one without (`Copies`), which keeps every string in its place and brings no new ones.
-/

namespace SiteBundle

open Text

variable {a a' m nv t u v w x new rest : Text} {c : Char} {l : List Text} {o : Option Unclosed}
  {p : VendorProperty} {s : Spot}

/-! ## declarations -/

theorem append_of_valuePart? (h : valuePart? t = some (v, rest)) : t = v ++ rest := by
  unfold valuePart? at h
  split at h
  · rename_i r hr
    dsimp only at h
    split at h
    · exact nomatch h
    · obtain ⟨rfl, rfl⟩ := Prod.mk.inj (Option.some.inj h)
      rw [List.append_assoc, List.cons_append, List.takeWhile_append_dropWhile, ← hr,
        List.takeWhile_append_dropWhile]
  · exact nomatch h

theorem of_declaration? (h : declaration? t = some (new, rest)) :
    ∃ p ∈ vendorProperties, ∃ v, t = p.name ++ (v ++ rest) ∧ new = copied p v := by
  obtain ⟨p, hp, h⟩ := List.exists_of_findSome?_eq_some h
  obtain ⟨r, hr, h⟩ := Option.bind_eq_some_iff.mp h
  obtain ⟨⟨v, rest'⟩, hv, h⟩ := Option.bind_eq_some_iff.mp h
  obtain ⟨rfl, rfl⟩ := Prod.mk.inj (Option.some.inj h)
  exact ⟨p, hp, v, by rw [← append_of_valuePart? hv, dropLead?_append hr], rfl⟩

/-- a declaration behind its lead, or at the start of the sheet without one -/
theorem of_ledDeclaration? (h : ledDeclaration? s t = some (new, rest)) :
    ∃ lead, ∃ p ∈ vendorProperties, ∃ v, t = lead ++ (p.name ++ (v ++ rest)) ∧
      new = lead ++ copied p v ∧
      (lead = [] ∧ s.before = none ∨ ∃ c, lead = [c] ∧ isDeclarationLead c = true) := by
  unfold ledDeclaration? at h
  dsimp only at h
  split at h
  · rename_i found hbare
    obtain rfl := Option.some.inj h
    split at hbare
    · rename_i hstart
      obtain ⟨p, hp, v, rfl, rfl⟩ := of_declaration? hbare
      exact ⟨[], p, hp, v, rfl, rfl, .inl ⟨rfl, Option.isNone_iff_eq_none.mp hstart⟩⟩
    · exact nomatch hbare
  · rename_i c r _
    split at h
    · rename_i hlead
      obtain ⟨⟨new, rest⟩, hread, e⟩ := Option.map_eq_some_iff.mp h
      obtain ⟨rfl, rfl⟩ := Prod.mk.inj e
      obtain ⟨p, hp, v, rfl, rfl⟩ := of_declaration? hread
      exact ⟨[c], p, hp, v, rfl, rfl, .inr ⟨c, rfl, hlead⟩⟩
    · exact nomatch h
  · exact nomatch h

/-- names and what their copies have before them are letters and dashes -/
theorem plain_of_mem_vendorProperties (h : p ∈ vendorProperties) : p.name ≠ [] ∧
    (∀ c ∈ p.name, isPlain c = true) ∧ ∀ lead ∈ p.leads, ∀ c ∈ lead, isPlain c = true := by
  have hall : ∀ p ∈ vendorProperties, p.name ≠ [] ∧ (∀ c ∈ p.name, isPlain c = true) ∧
      ∀ lead ∈ p.leads, ∀ c ∈ lead, isPlain c = true := by decide +kernel
  exact hall p h

theorem isPlain_of_lead (h : isDeclarationLead c = true) : isPlain c = true := by
  have hne : ∀ d, isDeclarationLead d = false → c ≠ d := by
    rintro d hd rfl
    exact nomatch h.symm.trans hd
  simp [isPlain, hne '"' rfl, hne '\'' rfl, hne '/' rfl, hne '*' rfl]

theorem takes_ledDeclaration? : Takes ledDeclaration? := by
  intro s t new rest h
  obtain ⟨lead, p, hp, v, rfl, -, -⟩ := of_ledDeclaration? h
  obtain ⟨hname, -, -⟩ := plain_of_mem_vendorProperties hp
  exact ⟨lead ++ (p.name ++ v), by simp [hname], by simp⟩

/-! ## copies -/

theorem clearEnd_plain (hc : isPlain c = true) (t : Text) : ClearEnd (t ++ [c]) := by
  intro d hd
  rw [List.getLast?_concat] at hd
  rw [← Option.some.inj hd]
  simp only [isPlain, Bool.not_eq_true', Bool.or_eq_false_iff, beq_eq_false_iff_ne] at hc
  exact ⟨hc.1.2, hc.2⟩

theorem apart_plain (hw : ∀ c ∈ w, isPlain c = true) (hne : w ≠ []) (t u : Text) :
    Apart t (w ++ u) := by
  obtain ⟨c, w, rfl⟩ := List.exists_cons_of_ne_nil hne
  refine .inr fun d hd => ?_
  rw [← Option.some.inj hd]
  have hc := hw c List.mem_cons_self
  simp only [isPlain, Bool.not_eq_true', Bool.or_eq_false_iff, beq_eq_false_iff_ne] at hc
  exact ⟨hc.1.2, hc.2⟩

/-- the strings that are closed in a text stay, whatever follows -/
theorem exists_styleStrings_append (t x : Text) :
    ∃ l, styleStrings (t ++ x) = styleStrings t ++ l := by
  suffices h : ∀ {l o}, Outline t l o → ∃ l', styleStrings (t ++ x) = l ++ l' from h (outline t)
  intro l o h
  have hread : ∀ {t l o}, Outline t l o → styleStrings t = l := fun h =>
    ((outline_iff.mp h).1).symm
  induction h with
  | done => exact ⟨_, rfl⟩
  | @char c t l o hquote hslash h ih =>
    by_cases hopens : c = '/' ∧ t = []
    · obtain ⟨-, rfl⟩ := hopens
      obtain rfl : styleStrings [] = _ := hread h
      exact ⟨_, rfl⟩
    · obtain ⟨l', hl⟩ := ih
      refine ⟨l', (hread (.char hquote ?_ (outline (t ++ x)))).trans hl⟩
      intro hc
      cases t with
      | nil => exact absurd ⟨hc, rfl⟩ hopens
      | cons d t => exact hslash hc
  | @comment m t l o hm _ ih =>
    obtain ⟨l', hl⟩ := ih
    refine ⟨l', ?_⟩
    rw [List.cons_append, List.cons_append, List.append_assoc]
    exact (hread (.comment hm (outline (t ++ x)))).trans hl
  | @string quote m t l o hquote hm _ ih =>
    obtain ⟨l', hl⟩ := ih
    refine ⟨l', ?_⟩
    rw [List.cons_append, List.append_assoc]
    exact (hread (.string hquote hm (outline (t ++ x)))).trans (congrArg ((quote :: m) :: ·) hl)
  | openComment => exact ⟨_, rfl⟩
  | openString => exact ⟨_, rfl⟩

section
variable (ho : openAt a ≠ some .string) (hname : w ≠ []) (hplain : ∀ c ∈ w, isPlain c = true)
  (hvalue : openAt (opening (openAt a) ++ (w ++ v)) = openAt a)
include ho hname hplain hvalue

/-- one copy of a declaration -/
theorem outline_copy {lead : Text} (hlead : ∀ c ∈ lead, isPlain c = true) :
    openAt (a ++ (lead ++ w ++ v ++ [';'])) = openAt a ∧
      styleStrings (a ++ (lead ++ w ++ v ++ [';'])) = styleStrings a ++ stretchStrings a (w ++ v) := by
  obtain ⟨hstrings, hopen⟩ := outline_allPlain ho hlead
  have hled : openAt (a ++ lead) ≠ some .string := by
    rw [hopen]
    exact ho
  obtain ⟨hstrings', hopen'⟩ := outline_append hled (apart_plain hplain hname (a ++ lead) v)
  rw [hopen, hvalue] at hopen'
  rw [hstrings, hopen] at hstrings'
  have hend : openAt ((a ++ lead) ++ (w ++ v)) ≠ some .string := by
    rw [hopen']
    exact ho
  obtain ⟨hstrings'', hopen''⟩ := outline_plain (c := ';') hend rfl
  rw [show a ++ (lead ++ w ++ v ++ [';']) = ((a ++ lead) ++ (w ++ v)) ++ [';'] by simp]
  exact ⟨hopen''.trans hopen', hstrings''.trans hstrings'⟩

/-- **Copies are a stretch that ends in what it begins in**, with the strings of the declaration
alone. -/
theorem styleStrings_copies (leads : List Text) (hleads : ∀ lead ∈ leads, ∀ c ∈ lead, isPlain c = true)
    (ha : ClearEnd a) :
    openAt (a ++ leads.flatMap fun lead => lead ++ w ++ v ++ [';']) = openAt a ∧
      ClearEnd (a ++ leads.flatMap fun lead => lead ++ w ++ v ++ [';']) ∧
      ∀ l ∈ stretchStrings a (leads.flatMap fun lead => lead ++ w ++ v ++ [';']),
        l ∈ stretchStrings a (w ++ v) := by
  induction leads generalizing a with
  | nil =>
    rw [List.flatMap_nil, List.append_nil, stretchStrings, List.append_nil, (outline_opening ho).1]
    exact ⟨rfl, ha, nofun⟩
  | cons lead leads ih =>
    obtain ⟨hlead, hleads⟩ := List.forall_mem_cons.mp hleads
    obtain ⟨hopen, hstrings⟩ := outline_copy ho hname hplain hvalue hlead
    have hclear : ClearEnd (a ++ (lead ++ w ++ v ++ [';'])) := by
      rw [← List.append_assoc]
      exact clearEnd_plain rfl _
    generalize hk : lead ++ w ++ v ++ [';'] = k at hopen hstrings hclear
    have hsame : ∀ m, stretchStrings (a ++ k) m = stretchStrings a m := fun m => by
      rw [stretchStrings, hopen, stretchStrings]
    obtain ⟨hopen', hclear', hmem⟩ := ih (a := a ++ k) (by rw [hopen]; exact ho)
      (by rw [hopen]; exact hvalue) hleads hclear
    have hk' : openAt (a ++ k) ≠ some .string := by
      rw [hopen]
      exact ho
    rw [List.flatMap_cons, hk]
    generalize (leads.flatMap fun lead => lead ++ w ++ v ++ [';']) = copies at hopen' hclear' hmem
    rw [← List.append_assoc]
    refine ⟨hopen'.trans hopen, hclear', fun l hl => ?_⟩
    -- the strings of the first copy, then those of the others
    have hsplit : stretchStrings a (k ++ copies) =
        stretchStrings a (w ++ v) ++ stretchStrings a copies := by
      refine (List.append_right_inj (styleStrings a)).mp ?_
      rw [← List.append_assoc, ← hstrings, ← hsame copies]
      exact (outline_append ho (.inl ha)).1.symm.trans (by
        rw [← List.append_assoc]
        exact (outline_append hk' (.inl hclear)).1)
    rw [hsplit] at hl
    rw [hsame copies, hsame] at hmem
    exact (List.mem_append.mp hl).elim id (hmem l)

end

/-! ## along the search -/

/-- the second text, with copies, is read on as the first one: its strings stay, and only they occur -/
structure Copies (a a' : Text) : Prop where
  start : a = [] → a' = []
  opens : ∀ x, openAt (a ++ x) = openAt (a' ++ x)
  sublist : ∀ x, (styleStrings (a ++ x)).Sublist (styleStrings (a' ++ x))
  mem : ∀ x, ∀ l ∈ styleStrings (a' ++ x), l ∈ styleStrings (a ++ x)

theorem Copies.keep (h : Copies a a') (m : Text) (hm : m ≠ []) : Copies (a ++ m) (a' ++ m) := by
  refine ⟨fun hnil => absurd (List.append_eq_nil_iff.mp hnil).2 hm, fun x => ?_, fun x => ?_,
    fun x => ?_⟩
  · rw [List.append_assoc, List.append_assoc]
    exact h.opens _
  · rw [List.append_assoc, List.append_assoc]
    exact h.sublist _
  · rw [List.append_assoc, List.append_assoc]
    exact h.mem _

/-- copies in front of what they copy -/
theorem Copies.insert {copies : Text} (h : Copies a a') (ho : openAt a ≠ some .string)
    (ha : ClearEnd a') (hopen : openAt (a' ++ copies) = openAt a')
    (hclear : ClearEnd (a' ++ copies)) (hne : m ≠ [])
    (hmem : ∀ l ∈ stretchStrings a' copies, l ∈ stretchStrings a' m) :
    Copies (a ++ m) (a' ++ (copies ++ m)) := by
  have hsame : openAt a = openAt a' := by
    have := h.opens []
    rwa [List.append_nil, List.append_nil] at this
  have ho' : openAt a' ≠ some .string := hsame ▸ ho
  refine ⟨fun hnil => absurd (List.append_eq_nil_iff.mp hnil).2 hne, fun x => ?_, fun x => ?_,
    fun x => ?_⟩
  · obtain ⟨hread, -⟩ := styleStrings_stretch ho' hopen ha hclear (m ++ x)
    rw [List.append_assoc, List.append_assoc, List.append_assoc, hread]
    exact h.opens _
  · obtain ⟨-, behind, hx, hmx⟩ := styleStrings_stretch ho' hopen ha hclear (m ++ x)
    rw [List.append_assoc, List.append_assoc, List.append_assoc, hmx]
    refine (h.sublist (m ++ x)).trans ?_
    rw [hx]
    exact (List.sublist_append_right _ _).append_left _
  · obtain ⟨-, behind, hx, hmx⟩ := styleStrings_stretch ho' hopen ha hclear (m ++ x)
    intro l hl
    rw [List.append_assoc, List.append_assoc, hmx] at hl
    rw [List.append_assoc]
    refine h.mem (m ++ x) l ?_
    have hm : ∀ l ∈ stretchStrings a' m, l ∈ styleStrings (a' ++ (m ++ x)) := by
      intro l hl
      obtain ⟨more, hmore⟩ := exists_styleStrings_append (a' ++ m) x
      rw [← List.append_assoc, hmore, (outline_append ho' (.inl ha)).1]
      exact List.mem_append_left _ (List.mem_append_right _ hl)
    rcases List.mem_append.mp hl with hl | hl
    · rw [hx]
      exact List.mem_append_left _ hl
    · rcases List.mem_append.mp hl with hl | hl
      · exact hm l (hmem l hl)
      · rw [hx]
        exact List.mem_append_right _ hl

/-- each declaration that gets copies begins outside strings and ends in what it begins in -/
def DeclarationsOutside (t : Text) : Prop := ∀ front m rest new, t = front ++ (m ++ rest) →
  (size front, new, m) ∈ findings (withTaken ledDeclaration?) t →
    openAt front ≠ some .string ∧ openAt (front ++ m) = openAt front

theorem Spot.before_over (t : Text) (h : (Spot.start.over t).before = none) : t = [] := by
  rcases List.eq_nil_or_concat t with rfl | ⟨t, c, rfl⟩
  · rfl
  · rw [List.concat_eq_append, Spot.over_append] at h
    exact nomatch h

/-- a declaration with its copies, behind a text that is read on -/
theorem Copies.declaration (h : Copies a a') (ho : openAt a ≠ some .string)
    (hm : openAt (a ++ m) = openAt a)
    (hread : ledDeclaration? (Spot.start.over a) (m ++ rest) = some (new, rest)) :
    Copies (a ++ m) (a' ++ new) := by
  obtain ⟨lead, p, hp, v, heq, rfl, hlead⟩ := of_ledDeclaration? hread
  obtain ⟨hne, hname, hleads⟩ := plain_of_mem_vendorProperties hp
  obtain rfl : m = lead ++ (p.name ++ v) := by
    refine (List.append_left_inj rest).mp ?_
    rw [heq]
    simp
  -- behind its lead the declaration stands at a clear place
  obtain ⟨hled, hclear, hopen⟩ : Copies (a ++ lead) (a' ++ lead) ∧ ClearEnd (a' ++ lead) ∧
      openAt (a ++ lead) = openAt a := by
    rcases hlead with ⟨rfl, hstart⟩ | ⟨c, rfl, hc⟩
    · obtain rfl := Spot.before_over a hstart
      obtain rfl := h.start rfl
      exact ⟨h, nofun, rfl⟩
    · have hplain := isPlain_of_lead hc
      exact ⟨h.keep [c] (List.cons_ne_nil _ _), clearEnd_plain hplain a', (outline_plain ho hplain).2⟩
  have hopen' : openAt (a' ++ lead) = openAt a := by
    have hsame := hled.opens []
    rw [List.append_nil, List.append_nil, hopen] at hsame
    exact hsame.symm
  have hno : openAt (a ++ lead) ≠ some .string := by
    rw [hopen]
    exact ho
  have hno' : openAt (a' ++ lead) ≠ some .string := by
    rw [hopen']
    exact ho
  have hvalue : openAt (opening (openAt (a' ++ lead)) ++ (p.name ++ v)) = openAt (a' ++ lead) := by
    rw [hopen', ← hopen, ← (outline_append hno (apart_plain hname hne _ v)).2, hopen,
      List.append_assoc]
    exact hm
  obtain ⟨hcopies, hclear', hmem⟩ := styleStrings_copies hno' hne hname hvalue p.leads hleads hclear
  have hinsert := hled.insert (m := p.name ++ v) hno hclear hcopies hclear' (by simp [hne]) hmem
  rw [copied]
  rw [List.append_assoc, List.append_assoc] at hinsert
  rw [List.append_assoc (p.leads.flatMap _)]
  exact hinsert

theorem replace_eq_flatMap (p : Spot → Text → Option (Text × Text)) (t : Text) :
    replace p t = (piecesFrom p .start 0 t).flatMap Piece.chars := by
  refine congrArg (List.flatMap · _) (funext fun piece => ?_)
  cases piece <;> rfl

/-- **The sheet with the copies is read on as the one without.** -/
theorem copies_addVendorPrefixes (h : DeclarationsOutside t) : Copies t (addVendorPrefixes t) := by
  have hreads := reads_withTaken takes_ledDeclaration?
  -- along the search, behind the part `a` of the sheet that is done
  have hsearch : ∀ s u, ∀ a a', s = Spot.start.over a → t = a ++ u →
      (∀ f ∈ findingsFrom (withTaken ledDeclaration?) s u, f ∈ findings (withTaken ledDeclaration?) t) →
      Copies a a' → Copies (a ++ u) (a' ++ (piecesFrom ledDeclaration? s 0 u).flatMap Piece.chars) := by
    refine fun s u => findings_induction hreads (motive := fun s u => ∀ a a', s = Spot.start.over a →
      t = a ++ u → (∀ f ∈ findingsFrom (withTaken ledDeclaration?) s u,
        f ∈ findings (withTaken ledDeclaration?) t) → Copies a a' →
      Copies (a ++ u) (a' ++ (piecesFrom ledDeclaration? s 0 u).flatMap Piece.chars)) ?_ ?_ ?_ s u
    · intro s a a' _ _ _ h
      rw [List.append_nil]
      exact (List.append_nil a').symm ▸ h
    · intro s c u hno ih a a' hs ht hmem h
      have hno' : ledDeclaration? s (c :: u) = none := Option.map_eq_none_iff.mp hno
      rw [findingsFrom_none hno] at hmem
      have hrest := ih (a ++ [c]) (a' ++ [c]) (by rw [hs, Spot.over_append]; rfl) (by rw [ht]; simp)
        hmem (h.keep [c] (List.cons_ne_nil _ _))
      rw [piecesFrom_none hno', List.flatMap_cons]
      rw [List.append_assoc, List.append_assoc] at hrest
      exact hrest
    · rintro s ⟨new, m⟩ rest hfound hne ih a a' hs ht hmem h
      have hread := withTaken_eq_some.mp hfound
      have hhere := findingsFrom_found hne hfound
      rw [hhere] at hmem
      obtain ⟨hfirst, hmem⟩ := List.forall_mem_cons.mp hmem
      have hsize : s.offset = size a := by rw [hs, Spot.offset_start_over]
      rw [hsize] at hfirst
      obtain ⟨ho, hm⟩ := ‹DeclarationsOutside t› a m rest new ht hfirst
      rw [hs] at hread
      have hrest := ih (a ++ m) (a' ++ new) (by rw [hs, Spot.over_append]) (by rw [ht]; simp) hmem
        (h.declaration ho hm hread)
      rw [← hs] at hread
      rw [piecesFrom_found hne hread, List.flatMap_cons]
      rw [List.append_assoc, List.append_assoc] at hrest
      exact hrest
  have hall := hsearch .start t [] [] rfl rfl (fun _ hf => hf) ⟨id, fun _ => rfl,
    fun _ => List.Sublist.refl _, fun _ _ hl => hl⟩
  rw [addVendorPrefixes, replace_eq_flatMap]
  exact hall

end SiteBundle
