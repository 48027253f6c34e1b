import SiteBundle.Proofs.Bundle.Classified
import SiteBundle.Proofs.Bundle.Groups

/-!
# Where the code of assets comes from

A reference is resolved to a file that the tree has, or to none, and what refers to no file never
becomes an asset.  Grouping sorts the absolute references out.

* `Source.Stands`   code can be had from the source, or it is an absolute reference;
* `Group.Coded`     the members of the group have code, unless the group is written anew.
-/

namespace SiteBundle

open Text

/-! ## assets -/

/-- the source is no missing file, and a file that the tree has if it is one -/
def Source.Stands (t : Tree) : Source → Prop
  | .file id => t.isFile id = true
  | .missing _ => False
  | _ => True

/-- an asset has the source that its element refers to, and an untouched element its file -/
def Classified.RefersTo (source : Source) : Classified → Prop
  | .asset a => a.source = source ∧ ∀ url, source ≠ .missing url
  | .missing _ _ => True
  | .untouched _ file => ∀ id, file = some id → source = .file id

section
variable {t : Tree} {dir : NodeId} {policy : Policy} {e : Element} {p : Page}

theorem isFile_of_resolve? {reference : Text} {id : NodeId} (h : t.resolve? dir reference = some id) :
    t.isFile id = true := by
  unfold Tree.resolve? at h
  dsimp only at h
  split at h
  · exact nomatch h
  · obtain ⟨found, -, hfound⟩ := Option.bind_eq_some_iff.mp h
    split at hfound
    · rename_i hfile
      rw [← Option.some.inj hfound]
      exact hfile
    · exact nomatch hfound

theorem isFile_of_ofReference {reference : Option Text} {id : NodeId}
    (h : Source.ofReference t dir reference = .file id) : t.isFile id = true := by
  unfold Source.ofReference at h
  split at h
  · exact nomatch h
  · split at h
    · exact nomatch h
    · split at h
      · exact nomatch h
      · split at h
        · rename_i hfound
          rw [← Source.file.inj h]
          exact isFile_of_resolve? hfound
        · exact nomatch h

theorem eq_file_of_file? {source : Source} {id : NodeId} (h : source.file? = some id) :
    source = .file id := by
  cases source with
  | file k => exact congrArg Source.file (Option.some.inj h)
  | inline => exact nomatch h
  | absolute url => exact nomatch h
  | missing url => exact nomatch h

theorem refersTo_classifyScript (policy : Policy) (e : Element) (source : Source) :
    (classifyScript policy e source).RefersTo source := by
  unfold classifyScript
  dsimp only
  split
  · exact fun id hid => eq_file_of_file? hid
  · split
    · exact trivial
    · rename_i hmissing
      split
      · exact nofun
      · exact ⟨rfl, hmissing⟩

theorem refersTo_classifySheet (policy : Policy) (e : Element) (source : Source) :
    (classifySheet policy e source).RefersTo source := by
  unfold classifySheet
  split
  · exact fun id hid => eq_file_of_file? hid
  · split
    · exact trivial
    · rename_i hmissing
      split
      · exact nofun
      · exact ⟨rfl, hmissing⟩

theorem exists_refersTo (t : Tree) (dir : NodeId) (policy : Policy) (e : Element) :
    ∃ reference, (classify t dir policy e).RefersTo (.ofReference t dir reference) := by
  unfold classify
  split
  · exact ⟨_, refersTo_classifyScript policy e _⟩
  · exact ⟨_, refersTo_classifySheet policy e _⟩

theorem Page.stands_of_mem_assets {a : Asset} (h : a ∈ p.assets policy t) : a.source.Stands t := by
  obtain ⟨c, hc, ha⟩ := List.mem_filterMap.mp h
  obtain ⟨e, -, rfl⟩ := List.mem_map.mp hc
  obtain ⟨reference, hr⟩ := exists_refersTo t p.dir policy e
  cases hclass : classify t p.dir policy e with
  | asset b =>
    rw [hclass] at ha hr
    obtain rfl := Option.some.inj ha
    obtain ⟨hsource, hmissing⟩ := hr
    rw [hsource]
    cases hs : Source.ofReference t p.dir reference with
    | file id => exact isFile_of_ofReference hs
    | missing url => exact hmissing url hs
    | inline => exact trivial
    | absolute url => exact trivial
  | missing m url =>
    rw [hclass] at ha
    exact nomatch ha
  | untouched u file =>
    rw [hclass] at ha
    exact nomatch ha

theorem Page.isFile_of_untouched {c : Classified} {id : NodeId} (hc : c ∈ p.classified policy t)
    (h : c.untouchedFile? = some id) : t.isFile id = true := by
  obtain ⟨e, -, rfl⟩ := List.mem_map.mp hc
  obtain ⟨reference, hr⟩ := exists_refersTo t p.dir policy e
  cases hclass : classify t p.dir policy e with
  | asset b =>
    rw [hclass] at h
    exact nomatch h
  | missing m url =>
    rw [hclass] at h
    exact nomatch h
  | untouched u file =>
    rw [hclass] at h hr
    exact isFile_of_ofReference (hr id h)

/-- stylesheets are no modules -/
theorem Page.not_module_of_style (hf : policy.family = .style) {a : Asset}
    (h : a ∈ p.assets policy t) : a.module = false := by
  obtain ⟨c, hc, ha⟩ := List.mem_filterMap.mp h
  obtain ⟨e, -, rfl⟩ := List.mem_map.mp hc
  unfold classify at ha
  rw [hf] at ha
  dsimp only at ha
  unfold classifySheet at ha
  split at ha
  · exact nomatch ha
  · split at ha
    · exact nomatch ha
    · split at ha
      · exact nomatch ha
      · rw [← Option.some.inj ha]

end

/-! ## groups -/

/-- the members of the group have code, unless they are written anew; modules stand alone -/
structure Group.Coded (g : Group) : Prop where
  members : g.members ≠ []
  relative : g.kind ≠ .standalone → ∀ a ∈ g.members, a.source.isAbsolute = false
  module : g.kind = .module → ∀ a ∈ g.members, a.module = true

theorem Group.Compatible.coded {g : Group} (h : g.Compatible) : g.Coded := by
  obtain ⟨kind, members⟩ := g
  cases kind with
  | standalone =>
    obtain ⟨a, rfl, -⟩ := h
    exact ⟨List.cons_ne_nil _ _, fun hk => absurd rfl hk, nofun⟩
  | module =>
    obtain ⟨a, rfl, hmodule, habs⟩ := h
    exact ⟨List.cons_ne_nil _ _, fun _ => List.forall_mem_singleton.mpr habs,
      fun _ => List.forall_mem_singleton.mpr hmodule⟩
  | merged deferred async =>
    cases async with
    | true =>
      obtain ⟨a, rfl, -, -, habs⟩ := h
      exact ⟨List.cons_ne_nil _ _, fun _ => List.forall_mem_singleton.mpr habs, nofun⟩
    | false => exact ⟨h.1, fun _ a ha => (h.2 a ha).1.1, nofun⟩

theorem coded_gathered {run : List Asset} (h : ∀ a ∈ run, a.source.isAbsolute = false) :
    ∀ g ∈ gathered run, g.Coded := by
  intro g hg
  cases run with
  | nil => exact nomatch hg
  | cons a r =>
    rw [List.mem_singleton.mp hg]
    exact ⟨List.cons_ne_nil _ _, fun _ => h, nofun⟩

theorem coded_sheetGroups {run : List Asset} (h : ∀ a ∈ run, a.source.isAbsolute = false)
    (l : List Asset) : ∀ g ∈ sheetGroups run l, g.Coded := by
  induction l generalizing run with
  | nil => exact coded_gathered h
  | cons a l ih =>
    rw [sheetGroups]
    split
    · intro g hg
      rcases List.mem_append.mp hg with hg | hg
      · exact coded_gathered h g hg
      · rcases List.mem_cons.mp hg with rfl | hg
        · exact ⟨List.cons_ne_nil _ _, fun hk => absurd rfl hk, nofun⟩
        · exact ih (fun _ hb => absurd hb List.not_mem_nil) g hg
    · rename_i habs
      exact ih fun b hb => (List.mem_append.mp hb).elim (h b) fun hb => by
        rw [List.mem_singleton.mp hb]
        exact Bool.eq_false_iff.mpr habs

theorem members_sheetGroups (run l : List Asset) :
    (sheetGroups run l).flatMap (·.members) = run ++ l := by
  induction l generalizing run with
  | nil => rw [sheetGroups, List.append_nil, members_gathered]
  | cons a l ih =>
    rw [sheetGroups]
    split
    · rw [List.flatMap_append, members_gathered, List.flatMap_cons, ih]
      rfl
    · rw [ih, List.append_assoc]
      rfl

theorem sublist_withoutRepeats (seen : List NodeId) (l : List Asset) :
    (withoutRepeats seen l).Sublist l := by
  induction l generalizing seen with
  | nil => exact .slnil
  | cons a l ih =>
    rw [withoutRepeats]
    split
    · exact (ih seen).cons a
    · exact (ih _).cons_cons a

/-- the groups of a family have code, and their members are among those that were grouped -/
theorem coded_groups (f : Family) (seen : List NodeId) (l : List Asset) :
    ∀ g ∈ (f.groups seen l).1, g.Coded ∧ ∀ a ∈ g.members, a ∈ l := by
  have hnone : ∀ a ∈ ([] : List Asset), a.source.isAbsolute = false :=
    fun _ ha => absurd ha List.not_mem_nil
  intro g hg
  cases f with
  | script =>
    refine ⟨(compatible_scriptGroups seen agreeing_nil l g hg).coded, fun a ha => ?_⟩
    have hmem : a ∈ (scriptGroups seen [] l).1.flatMap (·.members) :=
      List.mem_flatMap.mpr ⟨g, hg, ha⟩
    rw [members_scriptGroups, List.nil_append] at hmem
    exact (sublist_withoutRepeats seen l).mem hmem
  | style =>
    refine ⟨coded_sheetGroups hnone l g hg, fun a ha => ?_⟩
    have hmem : a ∈ (sheetGroups [] l).flatMap (·.members) := List.mem_flatMap.mpr ⟨g, hg, ha⟩
    rwa [members_sheetGroups] at hmem

theorem coded_groupsOf (f : Family) (seen : List NodeId) (members : List (List Asset)) :
    ∀ gs ∈ f.groupsOf seen members, ∀ g ∈ gs, g.Coded ∧ ∀ a ∈ g.members, ∃ m ∈ members, a ∈ m := by
  induction members generalizing seen with
  | nil => exact nofun
  | cons m members ih =>
    intro gs hgs g hg
    rcases List.mem_cons.mp hgs with rfl | hgs
    · obtain ⟨hcoded, hmem⟩ := coded_groups f seen (deferLast m) g hg
      exact ⟨hcoded, fun a ha =>
        ⟨m, List.mem_cons_self, (perm_deferLast m).mem_iff.mp (hmem a ha)⟩⟩
    · obtain ⟨hcoded, hmem⟩ := ih _ gs hgs g hg
      refine ⟨hcoded, fun a ha => ?_⟩
      obtain ⟨m', hm', ha'⟩ := hmem a ha
      exact ⟨m', List.mem_cons_of_mem m hm', ha'⟩

end SiteBundle
