import SiteBundle.Markup.Attributes
import SiteBundle.Proofs.Text.Findings
import SiteBundle.Proofs.Text.Reading

/-!
# Attribute lists are read back as they were written

An attribute list can be written when its names differ and are names, and no value holds both kinds
of quotes (`Attributes.Writable`).

* `writable_parse`   every list that was read is of this kind;
* `parse_written`    such a list, written into an opening tag, is read back from the tag: the same
  names with the same values, in the same order.
-/

namespace SiteBundle

open Text

namespace Attributes

/-! ## characters of names -/

theorem isNameChar_of_isBlank {c : Char} (h : isBlank c = true) : isNameChar c = false := by
  rw [isNameChar, isWord_of_isBlank h, beq_of_isBlank h rfl, beq_of_isBlank h rfl,
    beq_of_isBlank h rfl, beq_of_isBlank h rfl]
  rfl

theorem isBlank_of_isNameChar {c : Char} (h : isNameChar c = true) : isBlank c = false := by
  rw [Bool.eq_false_iff]
  intro hblank
  rw [isNameChar_of_isBlank hblank] at h
  exact nomatch h

/-- a character that ends names is in none -/
theorem ne_of_isNameChar {c d : Char} (hc : isNameChar c = true) (hd : isNameChar d = false) :
    c ≠ d := by
  rintro rfl
  rw [hc] at hd
  exact nomatch hd

/-! ## lists that can be written -/

/-- a quote is left for the value -/
def Quotable (v : Text) : Prop := '"' ∉ v ∨ '\'' ∉ v

/-- an entry with a name, and a value that can be quoted -/
structure EntryFits (e : Text × Option Text) : Prop where
  named : e.1 ≠ []
  name : ∀ c ∈ e.1, isNameChar c = true
  value : ∀ v, e.2 = some v → Quotable v

/-- the names differ, and all entries fit -/
structure Writable (a : Attributes) : Prop where
  distinct : (a.entries.map (·.1)).Nodup
  entries : ∀ e ∈ a.entries, EntryFits e

instance (v : Text) : Decidable (Quotable v) := inferInstanceAs (Decidable ('"' ∉ v ∨ '\'' ∉ v))

instance (e : Text × Option Text) : Decidable (EntryFits e) :=
  decidable_of_iff (e.1 ≠ [] ∧ (∀ c ∈ e.1, isNameChar c = true) ∧ ∀ v ∈ e.2, Quotable v)
    ⟨fun h => ⟨h.1, h.2.1, h.2.2⟩, fun h => ⟨h.named, h.name, h.value⟩⟩

instance (a : Attributes) : Decidable a.Writable :=
  decidable_of_iff ((a.entries.map (·.1)).Nodup ∧ ∀ e ∈ a.entries, EntryFits e)
    ⟨fun h => ⟨h.1, h.2⟩, fun h => ⟨h.distinct, h.entries⟩⟩

/-! ## what is read can be written -/

theorem quotable_of_value? {t v r : Text} (h : value? t = some (v, r)) : Quotable v := by
  unfold value? at h
  split at h
  · split at h
    · exact .inl (cutAt?_eq_some h).2
    · exact .inr (cutAt?_eq_some h).2
    · rename_i rest _ _
      dsimp only at h
      split at h
      · exact nomatch h
      · cases h
        refine .inl fun hmem => ?_
        exact absurd (List.all_eq_true.mp List.all_takeWhile _ hmem) (by decide)
  · exact nomatch h

theorem entryFits_of_entry? {t r : Text} {e : Text × Option Text} (h : entry? t = some (e, r)) :
    EntryFits e := by
  cases t with
  | nil => exact nomatch h
  | cons c t =>
    rw [ entry?] at h
    dsimp only at h
    split at h
    · rename_i hcond
      have hnamed : t.takeWhile isNameChar ≠ [] := by
        rw [Bool.and_eq_true, Bool.not_eq_true'] at hcond
        exact List.isEmpty_eq_false_iff.mp hcond.2
      have hname : ∀ d ∈ t.takeWhile isNameChar, isNameChar d = true :=
        List.all_eq_true.mp List.all_takeWhile
      split at h
      · rename_i v rest hvalue
        cases h
        exact ⟨hnamed, hname, fun w hw => Option.some.inj hw ▸ quotable_of_value? hvalue⟩
      · cases h
        exact ⟨hnamed, hname, nofun⟩
    · exact nomatch h

theorem fst_of_mem_setEntry {name : Text} {value : Option Text} {es : List (Text × Option Text)}
    {e : Text × Option Text} (h : e ∈ setEntry name value es) : e = (name, value) ∨ e ∈ es := by
  induction es with
  | nil => exact .inl (List.mem_singleton.mp h)
  | cons d es ih =>
    rw [setEntry] at h
    split at h
    · exact (List.mem_cons.mp h).imp_right (List.mem_cons_of_mem d)
    · rcases List.mem_cons.mp h with rfl | h
      · exact .inr List.mem_cons_self
      · exact (ih h).imp_right (List.mem_cons_of_mem d)

theorem nodup_setEntry {name : Text} {value : Option Text} {es : List (Text × Option Text)}
    (h : (es.map (·.1)).Nodup) : ((setEntry name value es).map (·.1)).Nodup := by
  induction es with
  | nil => exact List.nodup_cons.mpr ⟨List.not_mem_nil, List.nodup_nil⟩
  | cons d es ih =>
    rw [List.map_cons, List.nodup_cons] at h
    rw [setEntry]
    split
    · rename_i hd
      rw [List.map_cons, ← hd]
      exact List.nodup_cons.mpr h
    · rename_i hd
      rw [List.map_cons]
      refine List.nodup_cons.mpr ⟨fun hmem => ?_, ih h.2⟩
      obtain ⟨e, he, hname⟩ := List.mem_map.mp hmem
      rcases fst_of_mem_setEntry he with rfl | he
      · exact hd hname.symm
      · exact h.1 (List.mem_map.mpr ⟨e, he, hname⟩)

theorem Writable.set {a : Attributes} (h : a.Writable) {e : Text × Option Text} (he : EntryFits e) :
    (a.set e.1 e.2).Writable where
  distinct := nodup_setEntry h.distinct
  entries d hd := by
    rcases fst_of_mem_setEntry hd with rfl | hd
    · exact he
    · exact h.entries d hd

theorem writable_foldl {fs : List (Nat × Text × Option Text)} (hfs : ∀ f ∈ fs, EntryFits f.2)
    {a : Attributes} (h : a.Writable) :
    (fs.foldl (fun a f => a.set f.2.1 f.2.2) a).Writable := by
  induction fs generalizing a with
  | nil => exact h
  | cons f fs ih =>
    obtain ⟨hf, hfs⟩ := List.forall_mem_cons.mp hfs
    exact ih hfs (h.set hf)

/-! ## reading what was written -/

/-- the quote that a value is written in -/
def quoteOf (v : Text) : Char := if v.contains '"' then '\'' else '"'

theorem quoteOf_cases (v : Text) : quoteOf v = '"' ∨ quoteOf v = '\'' := by
  unfold quoteOf
  split
  · exact .inr rfl
  · exact .inl rfl

theorem quoteOf_not_mem {v : Text} (h : Quotable v) : quoteOf v ∉ v := by
  unfold quoteOf
  split
  · rename_i hmem
    exact h.resolve_left fun hno => hno (List.contains_iff_mem.mp hmem)
  · rename_i hno
    exact fun hmem => hno (List.contains_iff_mem.mpr hmem)

theorem entryText_flag (name : Text) : entryText (name, none) = ' ' :: name := rfl

theorem entryText_value (name v : Text) :
    entryText (name, some v) = ' ' :: (name ++ '=' :: quoteOf v :: (v ++ [quoteOf v])) := by
  unfold entryText quoteOf
  dsimp only
  split
  · simp
  · simp

/-- behind a list of entries, no value stands before the next entry -/
theorem value?_text {es : List (Text × Option Text)} (hes : ∀ e ∈ es, EntryFits e) :
    value? (es.flatMap entryText) = none := by
  cases es with
  | nil => rfl
  | cons e es =>
    obtain ⟨he, -⟩ := List.forall_mem_cons.mp hes
    obtain ⟨name, value⟩ := e
    obtain ⟨c, name, rfl⟩ := List.exists_cons_of_ne_nil he.named
    have hc : isNameChar c = true := he.name c List.mem_cons_self
    have htext : ∃ r, ((c :: name, value) :: es).flatMap entryText = ' ' :: c :: r := by
      cases value with
      | none => exact ⟨_, rfl⟩
      | some v => exact ⟨_, by rw [List.flatMap_cons, entryText_value]; rfl⟩
    obtain ⟨r, htext⟩ := htext
    rw [htext]
    unfold value?
    rw [List.dropWhile_cons_of_pos (by decide),
      List.dropWhile_cons_of_neg (by rw [isBlank_of_isNameChar hc]; exact Bool.false_ne_true)]
    split
    · rename_i heq
      exact absurd (List.cons.inj heq).1 (ne_of_isNameChar hc (by decide))
    · rfl

theorem value?_quoted {v : Text} (h : Quotable v) (rest : Text) :
    value? ('=' :: quoteOf v :: (v ++ quoteOf v :: rest)) = some (v, rest) := by
  have hcut := cutAt?_append (quoteOf_not_mem h) rest
  unfold value?
  rw [List.dropWhile_cons_of_neg (by decide)]
  dsimp only
  rcases quoteOf_cases v with hq | hq
  · rw [hq] at hcut ⊢
    exact hcut
  · rw [hq] at hcut ⊢
    exact hcut

/-- an entry is read back from the front of a list of entries -/
theorem entry?_text {e : Text × Option Text} {es : List (Text × Option Text)}
    (hes : ∀ d ∈ e :: es, EntryFits d) :
    entry? ((e :: es).flatMap entryText) = some (e, es.flatMap entryText) := by
  obtain ⟨he, hrest⟩ := List.forall_mem_cons.mp hes
  obtain ⟨name, value⟩ := e
  -- the name ends where its text does
  have hread : ∀ behind, behind.takeWhile isNameChar = [] →
      entry? (' ' :: (name ++ behind)) = some ((name, (value? behind).map (·.1)),
        ((value? behind).map (·.2)).getD behind) := by
    intro behind hend
    have hdrop : behind.dropWhile isNameChar = behind := by
      have h := List.takeWhile_append_dropWhile (p := isNameChar) (l := behind)
      rwa [hend] at h
    have hcond : (isBlank ' ' && !name.isEmpty) = true := by
      rw [List.isEmpty_eq_false_iff.mpr he.named]
      decide
    rw [ entry?, List.takeWhile_append_of_pos he.name, List.dropWhile_append_of_pos he.name, hend,
      hdrop, List.append_nil]
    dsimp only
    rw [if_pos hcond]
    cases value? behind <;> rfl
  rw [List.flatMap_cons]
  cases value with
  | none =>
    have hvalue : value? (es.flatMap entryText) = none := value?_text hrest
    have hend : (es.flatMap entryText).takeWhile isNameChar = [] := by
      cases es with
      | nil => rfl
      | cons d es =>
        rw [List.flatMap_cons]
        unfold entryText
        split
        · rfl
        · split <;> rfl
    rw [entryText_flag, List.cons_append, hread _ hend, hvalue]
    rfl
  | some v =>
    rw [entryText_value, List.cons_append, List.append_assoc, List.cons_append, List.cons_append,
      List.append_assoc, List.singleton_append, hread _ (List.takeWhile_cons_of_neg (by decide)),
      value?_quoted (he.value v rfl)]
    rfl

/-- a list of entries is read back entry by entry -/
theorem map_findingsFrom_text {es : List (Text × Option Text)} (hes : ∀ e ∈ es, EntryFits e)
    (s : Spot) : (findingsFrom (fun _ => entry?) s (es.flatMap entryText)).map (·.2) = es := by
  induction es generalizing s with
  | nil => rfl
  | cons e es ih =>
    have hread := entry?_text hes
    have hne : entryText e ≠ [] := by
      unfold entryText
      split
      · exact List.cons_ne_nil _ _
      · split
        · exact List.cons_ne_nil _ _
        · exact List.cons_ne_nil _ _
    rw [List.flatMap_cons] at hread ⊢
    rw [findingsFrom_found hne hread, List.map_cons, ih (List.forall_mem_cons.mp hes).2]

/-- a new name goes to the end -/
theorem setEntry_of_not_mem {name : Text} {value : Option Text} {es : List (Text × Option Text)}
    (h : name ∉ es.map (·.1)) : setEntry name value es = es ++ [(name, value)] := by
  induction es with
  | nil => rfl
  | cons e es ih =>
    obtain ⟨hne, hno⟩ := List.ne_and_not_mem_of_not_mem_cons h
    rw [setEntry, if_neg (Ne.symm hne), ih hno]
    rfl

theorem foldl_set (front : List (Text × Option Text)) {es : List (Text × Option Text)}
    (h : ((front ++ es).map (·.1)).Nodup) :
    es.foldl (fun a e => a.set e.1 e.2) ⟨front⟩ = (⟨front ++ es⟩ : Attributes) := by
  induction es generalizing front with
  | nil => rw [List.append_nil]; rfl
  | cons e es ih =>
    have hno : e.1 ∉ front.map (·.1) := by
      rw [List.map_append, List.map_cons] at h
      exact fun hmem => (List.nodup_append.mp h).2.2 _ hmem _ List.mem_cons_self rfl
    rw [List.append_cons] at h ⊢
    rw [List.foldl_cons, set, setEntry_of_not_mem hno]
    exact ih _ h

/-- the text ends with a character that is no part of the end of a tag -/
def EndsInside (t : Text) : Prop := ∃ u c, t = u ++ [c] ∧ c ≠ '>' ∧ c ≠ '/'

theorem EndsInside.append {t : Text} (h : EndsInside t) (front : Text) :
    EndsInside (front ++ t) := by
  obtain ⟨u, c, rfl, hc⟩ := h
  exact ⟨front ++ u, c, (List.append_assoc _ _ _).symm, hc⟩

theorem endsInside_name {name : Text} (hne : name ≠ []) (h : ∀ c ∈ name, isNameChar c = true) :
    EndsInside name := by
  obtain ⟨u, c, rfl⟩ := (List.eq_nil_or_concat name).resolve_left hne
  rw [List.concat_eq_append] at h ⊢
  have hc := h c (List.mem_append_right _ (List.mem_singleton_self c))
  exact ⟨u, c, rfl, ne_of_isNameChar hc (by decide), ne_of_isNameChar hc (by decide)⟩

theorem endsInside_entryText {e : Text × Option Text} (h : EntryFits e) :
    EndsInside (entryText e) := by
  obtain ⟨name, value⟩ := e
  cases value with
  | none =>
    rw [entryText_flag]
    exact (endsInside_name h.named h.name).append [' ']
  | some v =>
    rw [entryText_value]
    refine ⟨' ' :: (name ++ '=' :: quoteOf v :: v), quoteOf v, by simp, ?_⟩
    rcases quoteOf_cases v with hq | hq
    · rw [hq]
      decide
    · rw [hq]
      decide

/-- the body of a written tag is the text of its attributes -/
theorem tagBody_written {name : Text} (hne : name ≠ []) (hname : ∀ c ∈ name, isNameChar c = true)
    {a : Attributes} (ha : ∀ e ∈ a.entries, EntryFits e) :
    tagBody ('<' :: (name ++ (a.text ++ ['>']))) = a.text := by
  have hends : EndsInside (name ++ a.text) := by
    rcases List.eq_nil_or_concat a.entries with hnil | ⟨es, e, hes⟩
    · rw [text, hnil, List.flatMap_nil, List.append_nil]
      exact endsInside_name hne hname
    · rw [List.concat_eq_append] at hes
      rw [text, hes, List.flatMap_append, List.flatMap_singleton, ← List.append_assoc]
      exact (endsInside_entryText (ha e (hes ▸ List.mem_append_right _
        (List.mem_singleton_self e)))).append _
  obtain ⟨u, c, hu, hgreater, hslash⟩ := hends
  have hblank : ∀ c ∈ name, (!isBlank c) = true := by
    intro c hc
    rw [isBlank_of_isNameChar (hname c hc)]
    rfl
  have htext : a.text.dropWhile (fun c => !isBlank c) = a.text := by
    rw [text]
    cases a.entries with
    | nil => rfl
    | cons e es =>
      rw [List.flatMap_cons]
      unfold entryText
      split
      · rfl
      · split <;> rfl
  show (trimEndBy (· == '/') (trimEndBy (· == '>') (name ++ (a.text ++ ['>'])))).dropWhile
    (fun c => !isBlank c) = a.text
  rw [← List.append_assoc, hu, trimEndBy_concat_of _ (by rfl),
    trimEndBy_concat (p := (· == '>')) _ (beq_eq_false_iff_ne.mpr hgreater),
    trimEndBy_concat (p := (· == '/')) _ (beq_eq_false_iff_ne.mpr hslash), ← hu,
    List.dropWhile_append_of_pos hblank, htext]

/-! ## main statements -/

theorem writable_parse (tag : Text) : (parse tag).Writable := by
  refine writable_foldl (fun f hf => ?_) ⟨List.nodup_nil, nofun⟩
  obtain ⟨piece, hpiece, hfound⟩ := List.mem_filterMap.mp hf
  cases piece with
  | plain c => exact nomatch hfound
  | found o e =>
    obtain rfl := Option.some.inj hfound
    obtain ⟨_, t, rest, hread⟩ := read_of_mem_piecesFrom hpiece
    exact entryFits_of_entry? hread

theorem parse_written {name : Text} (hne : name ≠ []) (hname : ∀ c ∈ name, isNameChar c = true)
    {a : Attributes} (h : a.Writable) : parse ('<' :: (name ++ (a.text ++ ['>']))) = a := by
  have hread := map_findingsFrom_text h.entries .start
  have hset := foldl_set [] (by rw [List.nil_append]; exact h.distinct)
  rw [List.nil_append, ← hread, List.foldl_map, hread] at hset
  rw [parse, tagBody_written hne hname h.entries]
  exact hset

end Attributes
end SiteBundle
