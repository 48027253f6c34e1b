import Mathlib.Data.List.TakeWhile
import SiteBundle.Proofs.Disk.Listing
import SiteBundle.Proofs.Disk.Plain

/-!
# Which files an import finds

An address means its place, the place with an extension added, or the index file in it
(`meantPlaces`).  A search looks at the place with its extension *replaced*, which is the same only
for a name without an extension.

* `FindsMeant`   what a search gives is the first place meant that is a file;
* `IsBare`       the last name of a place has no extension.

A search finds what is meant on every disk if the place of the address is bare
(`findsMeant_locate?`), and fails to on some disk if it is not.  Such a disk has one file, at a place
that is meant and not searched or the other way round (`not_findsMeant_ofFile`).
-/

namespace SiteBundle

open Text

/-! ## what an address means -/

/-- the place whose path goes on with an extension -/
def Place.suffixed (p : Place) (extension : Text) : Place :=
  p.dropLast ++ [p.getLast?.getD [] ++ '.' :: extension]

/-- the places that an address means, in the order they are to be tried -/
def meantPlaces (base : Place) (specifier : Text) : List Place :=
  let place := Place.normalised [] (base ++ splitOn '/' specifier)
  [place, place.suffixed "js".toList, place.suffixed "mjs".toList, place ++ ["index.js".toList]]

def isRelativeImport (specifier : Text) : Bool :=
  hasLead "./".toList specifier || hasLead "../".toList specifier

/-- the result of a search is the first place meant that is a file, and nothing only if there is none
or the address is not relative -/
def FindsMeant (disk : Disk) (base : Place) (specifier : Text) : Option Place → Prop
  | some q => isRelativeImport specifier = true ∧ disk.isFile q = true ∧
      ∃ front back, meantPlaces base specifier = front ++ q :: back ∧
        ∀ p ∈ front, disk.isFile p = false
  | none => isRelativeImport specifier = true → ∀ p ∈ meantPlaces base specifier, disk.isFile p = false

/-- the place has a last name, and that has no extension -/
def Place.IsBare (p : Place) : Prop := ∃ front name, p = front ++ [name] ∧ '.' ∉ name.tail

/-! ## extensions -/

section
variable {front : Place} {name stem extension : Text}

theorem Place.suffixed_concat (front : Place) (name extension : Text) :
    (front ++ [name]).suffixed extension = front ++ [name ++ '.' :: extension] := by
  rw [suffixed, List.dropLast_concat, List.getLast?_concat, Option.getD_some]

theorem Place.withExtension_concat (front : Place) (name extension : Text) :
    (front ++ [name]).withExtension extension =
      front ++ [(splitExtension name).1 ++ '.' :: extension] := by
  unfold withExtension
  rw [List.getLast?_concat, List.dropLast_concat]

/-- the letters behind the last dot -/
theorem back_cut (h : '.' ∉ extension) :
    (stem ++ '.' :: extension).reverse.takeWhile (· != '.') = extension.reverse ∧
      (stem ++ '.' :: extension).reverse.dropWhile (· != '.') = '.' :: stem.reverse := by
  have hback : (stem ++ '.' :: extension).reverse = extension.reverse ++ '.' :: stem.reverse := by
    simp
  have hletters : ∀ c ∈ extension.reverse, (c != '.') = true := fun c hc =>
    bne_iff_ne.mpr fun e => h (e ▸ List.mem_reverse.mp hc)
  rw [hback, List.takeWhile_append_of_pos hletters, List.dropWhile_append_of_pos hletters]
  exact ⟨List.append_nil _, rfl⟩

theorem splitExtension_append (hstem : stem ≠ []) (h : '.' ∉ extension) :
    splitExtension (stem ++ '.' :: extension) = (stem, some extension) := by
  obtain ⟨htake, hdrop⟩ := @back_cut stem extension h
  unfold splitExtension
  simp only [htake, hdrop, List.isEmpty_reverse, List.isEmpty_eq_false_iff.mpr hstem,
    Bool.false_eq_true, if_false, List.reverse_reverse]

theorem splitExtension_of_not_mem (h : '.' ∉ name.tail) : splitExtension name = (name, none) := by
  by_cases hdot : '.' ∈ name
  · -- the only dot is the first letter
    obtain ⟨c, rest, rfl⟩ := List.exists_cons_of_ne_nil (List.ne_nil_of_mem hdot)
    obtain rfl : c = '.' := ((List.mem_cons.mp hdot).resolve_right h).symm
    have hdrop : ('.' :: rest).reverse.dropWhile (· != '.') = ['.'] := (@back_cut [] rest h).2
    unfold splitExtension
    simp only [hdrop]
    rfl
  · have hdrop : name.reverse.dropWhile (· != '.') = [] := by
      refine List.dropWhile_eq_nil_iff.mpr fun c hc => bne_iff_ne.mpr fun e => hdot ?_
      exact e ▸ List.mem_reverse.mp hc
    unfold splitExtension
    simp only [hdrop]

theorem exists_extension (h : '.' ∈ name.tail) :
    ∃ stem extension, name = stem ++ '.' :: extension ∧ stem ≠ [] ∧ '.' ∉ extension := by
  obtain ⟨c, rest, rfl⟩ : ∃ c rest, name = c :: rest := by
    cases name with
    | nil => cases h
    | cons c rest => exact ⟨c, rest, rfl⟩
  obtain ⟨back, front, hrest, hback⟩ := List.eq_append_cons_of_mem (List.mem_reverse.mpr h)
  refine ⟨c :: front.reverse, back.reverse, ?_, List.cons_ne_nil _ _, fun hc => ?_⟩
  · have hrest' := congrArg List.reverse hrest
    simp only [List.tail_cons, List.reverse_reverse, List.reverse_append, List.reverse_cons,
      List.append_assoc, List.singleton_append] at hrest'
    rw [hrest']
    rfl
  · exact hback (List.mem_reverse.mp hc)

end

/-! ## a disk with one file -/

/-- the disk with an empty file at a place, the folders above it, and nothing else -/
def Disk.ofFile (q : Place) : Disk :=
  ⟨(List.range q.length).map fun n =>
    (q.take (n + 1), if n + 1 = q.length then .file [] else .folder), []⟩

namespace Disk
variable {p q : Place} {e : Entry}

theorem mem_ofFile : (p, e) ∈ (ofFile q).entries ↔ ∃ n < q.length, p = q.take (n + 1) ∧
    e = if n + 1 = q.length then .file [] else .folder := by
  unfold ofFile
  rw [List.mem_map]
  constructor
  · rintro ⟨n, hn, he⟩
    cases he
    exact ⟨n, List.mem_range.mp hn, rfl, rfl⟩
  · rintro ⟨n, hn, rfl, rfl⟩
    exact ⟨n, List.mem_range.mpr hn, rfl⟩

theorem take_ne_nil {n : Nat} (hn : n < q.length) : q.take (n + 1) ≠ [] := by
  intro h
  have hlength := congrArg List.length h
  rw [List.length_take, List.length_nil] at hlength
  omega

theorem once_ofFile (q : Place) : ((ofFile q).entries.map (·.1)).Nodup := by
  have hplaces : (ofFile q).entries.map (·.1) = (List.range q.length).map fun n => q.take (n + 1) := by
    unfold ofFile
    rw [List.map_map]
    rfl
  rw [hplaces]
  refine List.Nodup.map_on (fun m hm n hn h => ?_) List.nodup_range
  have hlength := congrArg List.length h
  rw [List.length_take, List.length_take] at hlength
  rw [List.mem_range] at hm hn
  omega

theorem sound_ofFile (q : Place) : (ofFile q).Sound where
  once := once_ofFile q
  above := by
    rintro ⟨p, e⟩ hx
    obtain ⟨n, hn, rfl, _⟩ := mem_ofFile.mp hx
    refine ⟨take_ne_nil hn, ?_⟩
    show (ofFile q).isFolder (q.take (n + 1)).dropLast = true
    rw [← List.take_append_getElem hn, List.dropLast_concat]
    cases n with
    | zero => rfl
    | succ n =>
      have hn' : n < q.length := Nat.lt_of_succ_lt hn
      have hmem := mem_ofFile.mpr ⟨n, hn', rfl, (if_neg (Nat.ne_of_lt hn)).symm⟩
      exact isFolder_iff.mpr (get?_of_mem (once_ofFile q) (take_ne_nil hn') hmem)

theorem isFile_ofFile (hq : q ≠ []) : (ofFile q).isFile p = true ↔ p = q := by
  rw [isFile_iff]
  constructor
  · rintro ⟨content, h⟩
    by_cases hp : p = []
    · rw [hp] at h
      cases h
    · obtain ⟨n, hn, rfl, he⟩ := mem_ofFile.mp (mem_of_get? hp h)
      split at he
      · next hlast => rw [hlast, List.take_length]
      · cases he
  · rintro rfl
    have hpos := List.length_pos_of_ne_nil hq
    refine ⟨[], get?_of_mem (once_ofFile p) hq (mem_ofFile.mpr ⟨p.length - 1, by omega, ?_, ?_⟩)⟩
    · rw [Nat.sub_add_cancel hpos, List.take_length]
    · rw [Nat.sub_add_cancel hpos, if_pos rfl]

end Disk

section
variable {base front : Place} {specifier : Text} {q : Place}

theorem locate?_ofFile (hq : q ≠ []) (hrel : isRelativeImport specifier = true) :
    locate? (.ofFile q) base specifier =
      if q ∈ candidates base specifier then some q else none := by
  have hlocate : locate? (.ofFile q) base specifier =
      (candidates base specifier).find? (Disk.ofFile q).isFile := if_pos hrel
  rw [hlocate]
  split
  · next hmem =>
    obtain ⟨r, hr⟩ := Option.isSome_iff_exists.mp
      (List.find?_isSome.mpr ⟨q, hmem, (Disk.isFile_ofFile hq).mpr rfl⟩)
    rw [hr, (Disk.isFile_ofFile hq).mp (List.find?_some hr)]
  · next hmem =>
    refine List.find?_eq_none.mpr fun r hr hfile => hmem ?_
    exact (Disk.isFile_ofFile hq).mp hfile ▸ hr

/-- a place that is searched but not meant, or meant but not searched -/
theorem not_findsMeant_ofFile (hq : q ≠ []) (hrel : isRelativeImport specifier = true)
    (h : ¬ (q ∈ candidates base specifier ↔ q ∈ meantPlaces base specifier)) :
    ¬ FindsMeant (.ofFile q) base specifier (locate? (.ofFile q) base specifier) := by
  rw [locate?_ofFile hq hrel]
  intro hfinds
  split at hfinds
  · next hsearched =>
    obtain ⟨_, _, front, back, hmeant, _⟩ := hfinds
    refine h ⟨fun _ => ?_, fun _ => hsearched⟩
    rw [hmeant]
    exact List.mem_append_right _ List.mem_cons_self
  · next hsearched =>
    refine h ⟨fun hmem => absurd hmem hsearched, fun hmem => ?_⟩
    have hno := hfinds hrel q hmem
    rw [(Disk.isFile_ofFile hq).mpr rfl] at hno
    cases hno

theorem candidates_eq_meantPlaces
    (h : Place.IsBare (Place.normalised [] (base ++ splitOn '/' specifier))) :
    candidates base specifier = meantPlaces base specifier := by
  obtain ⟨front, name, hplace, hname⟩ := h
  unfold candidates meantPlaces
  rw [hplace]
  simp only [Place.suffixed_concat, Place.withExtension_concat, splitExtension_of_not_mem hname]

theorem findsMeant_locate? (disk : Disk)
    (h : isRelativeImport specifier = true → candidates base specifier = meantPlaces base specifier) :
    FindsMeant disk base specifier (locate? disk base specifier) := by
  have hlocate : locate? disk base specifier =
      if isRelativeImport specifier = true then (candidates base specifier).find? disk.isFile else none :=
    rfl
  rw [hlocate]
  split
  · next hrel =>
    rw [h hrel]
    cases hfind : (meantPlaces base specifier).find? disk.isFile with
    | none => exact fun _ p hp => Bool.eq_false_iff.mpr (List.find?_eq_none.mp hfind p hp)
    | some q =>
      obtain ⟨hq, front, back, hmeant, hfront⟩ := List.find?_eq_some_iff_append.mp hfind
      exact ⟨hrel, hq, front, back, hmeant, fun p hp => by simpa using hfront p hp⟩
  · next hrel => exact fun h => absurd h hrel

/-- replacing an extension leads to no place that is meant, but to the place itself -/
theorem eq_of_mem_meantPlaces {stem extension e : Text} (he : '.' ∉ e)
    (hplace : Place.normalised [] (base ++ splitOn '/' specifier) =
      front ++ [stem ++ '.' :: extension])
    (h : front ++ [stem ++ '.' :: e] ∈ meantPlaces base specifier) : e = extension := by
  have hadded : ∀ more : Text, front ++ [stem ++ '.' :: e] ≠
      front ++ [stem ++ '.' :: extension ++ '.' :: more] := fun more h => by
    have hname := List.append_cancel_left h
    rw [List.append_assoc] at hname
    have htail := List.append_cancel_left (List.cons.inj hname).1
    refine he ?_
    rw [(List.cons.inj htail).2]
    exact List.mem_append_right _ List.mem_cons_self
  unfold meantPlaces at h
  rw [hplace] at h
  simp only [Place.suffixed_concat, List.mem_cons, List.not_mem_nil, or_false] at h
  rcases h with h | h | h | h
  · have htail := List.append_cancel_left (List.cons.inj (List.append_cancel_left h)).1
    exact (List.cons.inj htail).2
  · exact absurd h (hadded _)
  · exact absurd h (hadded _)
  · have hlength := congrArg List.length h
    simp at hlength

/-- an extension is replaced -/
theorem candidates_of_extension {stem extension : Text} (hstem : stem ≠ []) (hext : '.' ∉ extension)
    (hplace : Place.normalised [] (base ++ splitOn '/' specifier) =
      front ++ [stem ++ '.' :: extension]) :
    candidates base specifier = [front ++ [stem ++ '.' :: extension],
      front ++ [stem ++ '.' :: "js".toList], front ++ [stem ++ '.' :: "mjs".toList],
      front ++ [stem ++ '.' :: extension] ++ ["index.js".toList]] := by
  unfold candidates
  rw [hplace]
  simp only [Place.withExtension_concat, splitExtension_append hstem hext]

/-- a place that is not bare is searched for where it is not meant, or not where it is -/
theorem exists_searched (h : ¬ Place.IsBare (Place.normalised [] (base ++ splitOn '/' specifier))) :
    ∃ q, q ≠ [] ∧ ¬ (q ∈ candidates base specifier ↔ q ∈ meantPlaces base specifier) := by
  generalize hplace : Place.normalised [] (base ++ splitOn '/' specifier) = place at h
  rcases List.eq_nil_or_concat place with rfl | ⟨front, name, rfl⟩
  · -- the root has no name that could get an extension
    refine ⟨[".js".toList], List.cons_ne_nil _ _, ?_⟩
    unfold candidates meantPlaces
    rw [hplace]
    decide
  · rw [List.concat_eq_append] at hplace h
    have hdot : '.' ∈ name.tail := Classical.byContradiction fun hno => h ⟨front, name, rfl, hno⟩
    obtain ⟨stem, extension, rfl, hstem, hext⟩ := exists_extension hdot
    obtain ⟨e, he, hne⟩ : ∃ e ∈ ["js".toList, "mjs".toList], e ≠ extension := by
      by_cases hjs : "js".toList = extension
      · exact ⟨"mjs".toList, by simp, fun h => absurd (hjs.trans h.symm) (by decide)⟩
      · exact ⟨"js".toList, by simp, hjs⟩
    have hletters : '.' ∉ e := by
      rcases List.mem_pair.mp he with rfl | rfl
      · decide
      · decide
    have hsearched : front ++ [stem ++ '.' :: e] ∈ candidates base specifier := by
      rw [candidates_of_extension hstem hext hplace]
      rcases List.mem_pair.mp he with rfl | rfl
      · exact List.mem_cons_of_mem _ List.mem_cons_self
      · exact List.mem_cons_of_mem _ (List.mem_cons_of_mem _ List.mem_cons_self)
    refine ⟨front ++ [stem ++ '.' :: e], by simp, fun hiff => hne ?_⟩
    exact eq_of_mem_meantPlaces hletters hplace (hiff.mp hsearched)

end

/-- **An import finds the file it means on every disk just when the place of its address has a name
without an extension.** -/
theorem locate?_meant_iff (base : Place) (specifier : Text) :
    (∀ disk : Disk, disk.Sound → FindsMeant disk base specifier (locate? disk base specifier)) ↔
      (isRelativeImport specifier = true →
        Place.IsBare (Place.normalised [] (base ++ splitOn '/' specifier))) := by
  constructor
  · intro h hrel
    refine Classical.byContradiction fun hbare => ?_
    obtain ⟨q, hq, hno⟩ := exists_searched hbare
    exact not_findsMeant_ofFile hq hrel hno (h _ (Disk.sound_ofFile q))
  · exact fun h disk _ => findsMeant_locate? disk fun hrel => candidates_eq_meantPlaces (h hrel)

/-- an import of `./lib.v2` finds a file `lib.js` -/
theorem locate?_meant_fails :
    locate? (.ofFile ["src".toList, "lib.js".toList]) ["src".toList] "./lib.v2".toList =
        some ["src".toList, "lib.js".toList] ∧
      ¬ FindsMeant (.ofFile ["src".toList, "lib.js".toList]) ["src".toList] "./lib.v2".toList
        (locate? (.ofFile ["src".toList, "lib.js".toList]) ["src".toList] "./lib.v2".toList) := by
  have hrel : isRelativeImport "./lib.v2".toList = true := by decide +kernel
  refine ⟨by decide +kernel, not_findsMeant_ofFile (List.cons_ne_nil _ _) hrel ?_⟩
  decide +kernel

end SiteBundle
