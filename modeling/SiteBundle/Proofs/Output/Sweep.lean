import SiteBundle.Output.Sweep
import SiteBundle.Proofs.Output.Selected
import SiteBundle.Proofs.Tree.Arena

/-!
# The flags and the stack agree with the plan

A folder comes before what is in it among the descendants of the source directory
(`Tree.mem_behind_of_mem_children`), so the pass back has all of a folder behind it when it comes to the
folder.  Each pass is told by what one round changes and what it leaves alone:

* `foldl_flagDropped`    the pass down flags what is left out for its own sake;
* `foldr_flagEmptied`    the pass back flags what is pruned, as far as it has come;
* `flags_eq_isPruned`    behind both, what has a flag is what is pruned;
* `flags_folder_iff`     so a folder has none if no ignore pattern matches it and, where empty ones are
  removed, a file below it has none;
* `halts_emit`           the loop with the stack comes to an end, with the plan;
* `plan_eq_map_flags`    that is an entry for each node without a flag.
-/

namespace SiteBundle

variable {s : Site} {patterns : List Text} {ignore keep : PathFilter} {flags : Flags} {id k : NodeId}

namespace Flags

@[simp] theorem raise_self (flags : Flags) (id : NodeId) : flags.raise id id = true := by
  rw [raise, beq_self_eq_true, Bool.true_or]

theorem raise_of_ne (flags : Flags) (h : k ≠ id) : flags.raise id k = flags k := by
  rw [raise, beq_false_of_ne h, Bool.false_or]

end Flags

namespace Site

/-! ## one round -/

theorem flagDropped_self : s.flagDropped ignore keep flags id id =
    (s.isDropped ignore keep id || flags id) := by
  unfold flagDropped
  split
  · rename_i h
    rw [Flags.raise_self, h, Bool.true_or]
  · rename_i h
    rw [Bool.eq_false_iff.mpr h, Bool.false_or]

theorem flagDropped_of_ne (h : k ≠ id) : s.flagDropped ignore keep flags id k = flags k := by
  unfold flagDropped
  split
  · exact flags.raise_of_ne h
  · rfl

theorem flagEmptied_self : s.flagEmptied flags id id =
    (flags id || (!s.tree.isFile id && (s.tree.children id).all flags)) := by
  unfold flagEmptied
  split
  · rename_i h
    rcases Bool.or_eq_true_iff.mp h with h | h
    · rw [h, Bool.not_true, Bool.false_and, Bool.or_false]
    · rw [h, Bool.true_or]
  · rename_i h
    obtain ⟨hfile, hflag⟩ := Bool.or_eq_false_iff.mp (Bool.eq_false_iff.mpr h)
    rw [hfile, hflag, Bool.not_false, Bool.true_and, Bool.false_or]
    split
    · rename_i hall
      rw [Flags.raise_self, hall]
    · rename_i hall
      rw [hflag, Bool.eq_false_iff.mpr hall]

theorem flagEmptied_of_ne (h : k ≠ id) : s.flagEmptied flags id k = flags k := by
  unfold flagEmptied
  split
  · rfl
  · split
    · exact flags.raise_of_ne h
    · rfl

/-! ## both passes -/

/-- the pass down, over any list of nodes -/
theorem foldl_flagDropped (ids : List NodeId) (flags : Flags) :
    ids.foldl (s.flagDropped ignore keep) flags k =
      (flags k || (decide (k ∈ ids) && s.isDropped ignore keep k)) := by
  induction ids generalizing flags with
  | nil => simp
  | cons id ids ih =>
    rw [List.foldl_cons, ih]
    by_cases hk : k = id
    · subst hk
      rw [flagDropped_self]
      cases s.isDropped ignore keep k <;> simp
    · rw [flagDropped_of_ne hk]
      simp [hk]

/-- the pass back, when it has been to the nodes in `rest`: these have a flag if they are pruned, and
all others have the flag they had -/
theorem foldr_flagEmptied (htree : s.tree.Rooted)
    (hremoves : s.options.get .removeEmptyDirectories = true) {front rest : List NodeId}
    (hsplit : s.tree.descendants Tree.root = front ++ rest)
    (hflags : ∀ k ∈ s.tree.descendants Tree.root, flags k = s.isDropped ignore keep k) :
    (∀ k ∈ rest, rest.foldr (fun id flags => s.flagEmptied flags id) flags k =
      s.isPruned ignore keep k) ∧
    ∀ k, k ∉ rest → rest.foldr (fun id flags => s.flagEmptied flags id) flags k = flags k := by
  induction rest generalizing front with
  | nil => exact ⟨nofun, fun _ _ => rfl⟩
  | cons id rest ih =>
    have hnodup := hsplit ▸ Tree.nodup_descendants htree Tree.root
    have hid : id ∉ rest := (List.nodup_cons.mp (List.nodup_append.mp hnodup).2.1).1
    have hmem : id ∈ s.tree.descendants Tree.root :=
      hsplit ▸ List.mem_append_right _ List.mem_cons_self
    have hbehind : s.tree.descendants Tree.root = front ++ [id] ++ rest := by
      rw [hsplit, List.append_assoc]
      rfl
    obtain ⟨hdone, hkept⟩ := ih hbehind
    rw [List.foldr_cons]
    generalize rest.foldr (fun id flags => s.flagEmptied flags id) flags = after at hdone hkept ⊢
    refine ⟨fun k hk => ?_, fun k hk => ?_⟩
    · rcases List.mem_cons.mp hk with rfl | hk
      · rw [flagEmptied_self, hkept k hid, hflags k hmem]
        rcases isFolder_or_file ((Tree.mem_descendants_root htree).mp hmem).1 with hfolder | ⟨st, hst⟩
        · -- the pass has been to all that is in the folder
          have hall : (s.tree.children k).all after =
              (s.tree.children k).all (s.isPruned ignore keep) := by
            rw [Bool.eq_iff_iff, List.all_eq_true, List.all_eq_true]
            refine forall₂_congr fun c hc => ?_
            rw [hdone c (Tree.mem_behind_of_mem_children htree hsplit hc)]
          rw [hall, isPruned_eq, hremoves, hfolder, Tree.isFile_eq_false hfolder, Bool.true_and,
            Bool.not_false]
        · have hfile := Tree.isFile_iff.mpr ⟨st, hst⟩
          rw [isPruned_of_file hfile, hfile, Bool.not_true, Bool.false_and, Bool.or_false]
      · rw [flagEmptied_of_ne (ne_of_mem_of_not_mem hk hid), hdone k hk]
    · rw [List.mem_cons, not_or] at hk
      rw [flagEmptied_of_ne hk.1, hkept k hk.2]

/-- **Behind both passes, what has a flag is what is pruned.** -/
theorem flags_eq_isPruned (htree : s.tree.Rooted) (ignore keep : PathFilter)
    (hk : k ∈ s.tree.descendants Tree.root) :
    s.flags ignore keep k = s.isPruned ignore keep k := by
  have hdropped : ∀ k ∈ s.tree.descendants Tree.root,
      (s.tree.descendants Tree.root).foldl (s.flagDropped ignore keep) .none k =
        s.isDropped ignore keep k := by
    intro k hk
    rw [foldl_flagDropped, decide_eq_true hk, Bool.true_and]
    rfl
  rw [flags]
  cases hremoves : s.options.get .removeEmptyDirectories with
  | true =>
    rw [if_pos rfl, List.foldl_reverse]
    exact (foldr_flagEmptied htree hremoves (List.nil_append _).symm hdropped).1 k hk
  | false =>
    rw [if_neg Bool.false_ne_true, hdropped k hk, isPruned_eq, hremoves, Bool.false_and,
      Bool.false_and, Bool.or_false]

/-- **Folders are emptied from below.**  The passes leave a folder without a flag exactly if no ignore
pattern matches it and, where empty ones are removed, some file below it is left without one. -/
theorem flags_folder_iff (htree : s.tree.Rooted) (hignore : PathFilter.read patterns = .ok ignore)
    (hfolder : s.tree.isFolder id = true) (hroot : id ≠ Tree.root) :
    s.flags ignore keep id = false ↔ ignore.accepts (s.tree.relativePath id) = false ∧
      (s.options.get .removeEmptyDirectories = true →
        ∃ f, s.tree.Below id f ∧ s.tree.isFile f = true ∧ s.flags ignore keep f = false) := by
  have hmem : id ∈ s.tree.descendants Tree.root :=
    (Tree.mem_descendants_root htree).mpr ⟨Tree.lt_of_isFolder hfolder, hroot⟩
  rw [flags_eq_isPruned htree ignore keep hmem, isPruned_folder_iff htree hignore hfolder hroot]
  refine and_congr_right fun _ => forall_congr' fun _ => exists_congr fun f =>
    and_congr_right fun hf => and_congr_right fun _ => ?_
  rw [flags_eq_isPruned htree ignore keep ((Tree.mem_descendants_iff htree).mpr
    ((Tree.within_root htree (Tree.lt_of_isFolder hfolder)).below_trans hf))]

/-! ## the stack -/

theorem emit_cons (s : Site) (flags : Flags) (k : NodeId) (rest : List NodeId)
    (entries : List OutputEntry) :
    s.emit flags (.mk (k :: rest) entries) =
      some (.mk ((if flags k then [] else s.tree.children k) ++ rest)
        (entries ++ if flags k then [] else [s.outputEntry k])) := by
  rw [emit]
  split
  · rw [List.nil_append, List.append_nil]
  · rfl

theorem planBelow_of_flags (htree : s.tree.Rooted) (id : NodeId) :
    s.planBelow ignore keep id = (s.tree.children id).flatMap fun k =>
      if s.flags ignore keep k then [] else s.outputEntry k :: s.planBelow ignore keep k := by
  rw [planBelow_eq]
  refine List.flatMap_congr fun k hk => ?_
  obtain ⟨hlt, hsize⟩ := Tree.lt_of_mem_children hk
  rw [flags_eq_isPruned htree ignore keep
    ((Tree.mem_descendants_root htree).mpr ⟨hsize, Nat.ne_of_gt (Nat.zero_lt_of_lt hlt)⟩)]

/-- **Planning with a stack comes to an end**, with the plan. -/
theorem halts_emit (htree : s.tree.Rooted) (ignore keep : PathFilter) :
    Halts (s.emit (s.flags ignore keep)) ⟨s.tree.children Tree.root, []⟩
      ⟨[], s.plan ignore keep⟩ := by
  have hend := halts_walk (t := s.tree) Emission.mk
    (fun k => if s.flags ignore keep k then [] else s.outputEntry k :: s.planBelow ignore keep k)
    (s.emit_cons (s.flags ignore keep)) (fun _ => rfl) (fun k c hc => ?_) (fun k => ?_)
    (s.tree.children Tree.root)
  · rw [← planBelow_of_flags htree] at hend
    exact hend
  · split at hc
    · exact nomatch hc
    · exact hc
  · split
    · rfl
    · rw [planBelow_of_flags htree, List.singleton_append]

/-- the stack leads to all nodes without a flag, since what is below a node with a flag has one too -/
theorem plan_eq_map_flags (htree : s.tree.Rooted) (hignore : PathFilter.read patterns = .ok ignore) :
    s.plan ignore keep = ((s.tree.descendants Tree.root).filter fun k =>
      !s.flags ignore keep k).map s.outputEntry := by
  rw [plan_eq_map htree hignore, selected]
  refine congrArg (List.map s.outputEntry) (List.filter_congr fun k hk => ?_)
  rw [flags_eq_isPruned htree ignore keep hk]

-- the drafts are ignored, and the folder of the bundled script is emptied
example : (Drafts.tree.descendants Tree.root).filter (Drafts.site.flags Drafts.ignore .nothing) =
    [1, 4, 2, 5] := by decide +kernel

end Site
end SiteBundle
