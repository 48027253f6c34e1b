import SiteBundle.Bundle.Page
import SiteBundle.Proofs.Bundle.Segments

/-!
# The assets of a page are scanned from it

Classifying an element keeps it, and the elements of a family are those of its tags in the order of
the document; so the assets of a page are scanned from its document (`Page.scanned_assets`).
-/

namespace SiteBundle

open Text

/-! ## the elements of a family -/

section
variable {d : Document} {f : Family}

theorem tag_of_mem_elements {tag : Tag} {e : Element} (h : e ∈ d.elements tag) : e.tag = tag :=
  (mem_scanElements.mp h).1

theorem exists_tag_of_mem {e : Element} (h : e ∈ f.elements d) : ∃ tag, e ∈ d.elements tag := by
  cases f with
  | script => exact ⟨.script, h⟩
  | style =>
    rcases List.mem_append.mp (List.mem_mergeSort.mp h) with h | h
    · exact ⟨.link, h⟩
    · exact ⟨.style, h⟩

/-- the elements of one tag begin at different offsets -/
theorem pairwise_elements (d : Document) (tag : Tag) :
    (d.elements tag).Pairwise fun x y => x.start < y.start := by
  refine (pairwise_scan d.text d.inert tag).imp_of_mem fun {x y} hx _ hxy => ?_
  have := (stands_of_mem_scan hx).start_lt_stop
  omega

theorem nodup_elements (d : Document) (tag : Tag) : (d.elements tag).Nodup :=
  (pairwise_elements d tag).imp fun {x y} (h : x.start < y.start) (e : x = y) => by
    rw [e] at h
    exact Nat.lt_irrefl _ h

theorem ascending_elements (d : Document) (f : Family) :
    (f.elements d).Pairwise fun x y => x.start ≤ y.start := by
  cases f with
  | script => exact (pairwise_elements d .script).imp Nat.le_of_lt
  | style => exact pairwise_sort_asc Element.start _

theorem nodup_family (d : Document) (f : Family) : (f.elements d).Nodup := by
  cases f with
  | script => exact nodup_elements d .script
  | style =>
    refine (List.mergeSort_perm _ _).nodup_iff.mpr (List.nodup_append.mpr
      ⟨nodup_elements d .link, nodup_elements d .style, fun x hx y hy e => ?_⟩)
    have hlink := tag_of_mem_elements hx
    rw [e, tag_of_mem_elements hy] at hlink
    cases hlink

end

/-! ## classifying keeps the element -/

def Classified.element : Classified → Element
  | .asset a => a.element
  | .missing e _ => e
  | .untouched e _ => e

section
variable {t : Tree} {dir : NodeId} {policy : Policy} {e : Element} {c : Classified}

theorem Classified.element_of_asset {a : Asset} (h : c.asset? = some a) : a.element = c.element := by
  cases c with
  | asset b => exact congrArg Asset.element (Option.some.inj h).symm
  | missing _ _ => cases h
  | untouched _ _ => cases h

theorem Classified.element_of_missing {m : Element} (h : c.missing? = some m) : m = c.element := by
  cases c with
  | asset _ => cases h
  | missing _ _ => exact (Option.some.inj h).symm
  | untouched _ _ => cases h

theorem element_classifyScript (policy : Policy) (e : Element) (source : Source) :
    (classifyScript policy e source).element = e := by
  unfold classifyScript
  dsimp only
  split
  · rfl
  · split
    · rfl
    · split
      · rfl
      · rfl

theorem element_classifySheet (policy : Policy) (e : Element) (source : Source) :
    (classifySheet policy e source).element = e := by
  unfold classifySheet
  split
  · rfl
  · split
    · rfl
    · split
      · rfl
      · rfl

theorem element_classify (t : Tree) (dir : NodeId) (policy : Policy) (e : Element) :
    (classify t dir policy e).element = e := by
  unfold classify
  split
  · exact element_classifyScript policy e _
  · exact element_classifySheet policy e _

end

/-! ## the assets of a page -/

namespace Page
variable {p : Page} {policy : Policy} {t : Tree}

def assets (p : Page) (policy : Policy) (t : Tree) : List Asset :=
  (p.classified policy t).filterMap (·.asset?)

/-- the elements that are dropped because their files are missing -/
def dropped (p : Page) (policy : Policy) (t : Tree) : List Element :=
  match policy.missingAction with
  | .keep => []
  | .remove => (p.classified policy t).filterMap (·.missing?)

theorem mem_elements_of_asset {a : Asset} (h : a ∈ p.assets policy t) :
    a.element ∈ policy.family.elements p.document := by
  obtain ⟨c, hc, ha⟩ := List.mem_filterMap.mp h
  obtain ⟨e, he, rfl⟩ := List.mem_map.mp hc
  rw [Classified.element_of_asset ha, element_classify]
  exact he

theorem stands_of_mem_dropped {e : Element} (h : e ∈ p.dropped policy t) :
    e.Stands p.document.text := by
  unfold dropped at h
  split at h
  · cases h
  · obtain ⟨c, hc, hm⟩ := List.mem_filterMap.mp h
    obtain ⟨e', he', rfl⟩ := List.mem_map.mp hc
    obtain ⟨tag, htag⟩ := exists_tag_of_mem he'
    rw [Classified.element_of_missing hm, element_classify]
    exact stands_of_mem_scan htag

theorem scanned_assets (p : Page) (policy : Policy) (t : Tree) :
    Scanned p.document (p.assets policy t) := by
  have hpair : ∀ {R : Element → Element → Prop}, (policy.family.elements p.document).Pairwise R →
      (p.assets policy t).Pairwise fun a b => R a.element b.element := by
    intro R h
    refine List.pairwise_filterMap.mpr (List.pairwise_map.mpr (h.imp fun {x y} hxy a ha b hb => ?_))
    rw [Classified.element_of_asset ha, Classified.element_of_asset hb, element_classify,
      element_classify]
    exact hxy
  refine ⟨fun a ha => exists_tag_of_mem (mem_elements_of_asset ha),
    hpair (ascending_elements _ _), ?_⟩
  exact (hpair (nodup_family _ _)).imp fun h e => h (congrArg Asset.element e)

end Page
end SiteBundle
