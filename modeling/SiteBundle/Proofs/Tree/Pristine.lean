import SiteBundle.Proofs.Tree.Growing
import SiteBundle.Tree.Scan

/-!
# Trees that were only read

The files of a tree that was read from the disk have fresh bookkeeping: nothing refers to them, no
bundle has them, and the bundler made none of them.
-/

namespace SiteBundle.Tree

/-- the bookkeeping of a file that was found on the disk -/
def freshFile : FileState := ⟨none, false, [], false⟩

def Pristine (t : Tree) : Prop := ∀ id st, t.file id = .ok st → st = freshFile

variable {t : Tree} {parent : NodeId} {name : Text}

theorem pristine_empty (top : Place) : (empty top).Pristine := by
  intro id st h
  obtain ⟨name, parent, hn⟩ := file_eq_ok_iff.mp h
  have hid : id = 0 := Nat.lt_one_iff.mp (lt_of_node? hn)
  subst hid
  exact nomatch Node.mk.inj (Option.some.inj hn)

theorem Pristine.add {kind : NodeKind} (h : t.Pristine)
    (hkind : ∀ st, kind = .file st → st = freshFile) : (t.add parent name kind).1.Pristine := by
  intro id st hst
  obtain ⟨name', parent', hn⟩ := file_eq_ok_iff.mp hst
  rw [node?_add] at hn
  split at hn
  · exact hkind st (Node.mk.inj (Option.some.inj hn)).2.2
  · exact h id st (file_eq_ok_iff.mpr ⟨name', parent', hn⟩)

theorem Pristine.addFolder (h : t.Pristine) : (t.addFolder parent name).1.Pristine :=
  h.add nofun

theorem Pristine.addSource (h : t.Pristine) : (t.addSource parent name).1.Pristine :=
  h.add fun _ hst => (NodeKind.file.inj hst).symm

/-- a scan reads the listing of the place that the path leads to -/
theorem scan_eq_ok {disk : Disk} {src : Text} {filter : TreeFilter}
    (h : Tree.scan disk src filter = .ok t) : ∃ top, disk.locate src = .ok top ∧
      t = (((disk.listing top).filter fun e => !filter.refuses top
        (filter.exclude.bind fun e => (disk.locate e).toOption) e.1).foldl Scan.add
          ⟨.empty top, [([], root)]⟩).tree := by
  unfold scan at h
  cases htop : disk.locate src with
  | error fault =>
    rw [htop] at h
    exact nomatch h
  | ok top =>
    rw [htop] at h
    exact ⟨top, rfl, (Except.ok.inj h).symm⟩

theorem pristine_scan {disk : Disk} {src : Text} {filter : TreeFilter}
    (h : Tree.scan disk src filter = .ok t) : t.Pristine := by
  have hfold : ∀ (l : List (Place × Entry)) (s : Scan), s.tree.Pristine →
      (l.foldl Scan.add s).tree.Pristine := by
    intro l
    induction l with
    | nil => exact fun _ hs => hs
    | cons e l ih =>
      intro s hs
      refine ih _ ?_
      unfold Scan.add
      cases e.2 with
      | folder => exact hs.addFolder
      | file content => exact hs.addSource
  obtain ⟨top, -, rfl⟩ := scan_eq_ok h
  exact hfold _ _ (pristine_empty top)

end SiteBundle.Tree
