import SiteBundle.Proofs.Toml.Lines

/-!
# Documents, written and read

A document is the lines of a table (`documentLines`), and reading adds them one after the other to the
tables defined so far.  What a line adds is told by the place it goes to:

* `Laid`                  tables with their plain values first, no key twice;
* `Leads`, `Reaches`      a path leads to a table inside the root, which may still have to be made;
* `Settles`               the lines of a table, under its path, add that table at the end of the entries
                          there and nothing else;
* `read?_documentText`    the whole.
-/

namespace SiteBundle.Toml

open Text

/-! ## the lines of a document -/

/-- the plain values of a table -/
def plainEntries (entries : List (Text × Toml)) : List Line :=
  (entries.filter fun e => !isTable e.2).map fun e => .entry e.1 e.2

mutual

/-- a table at a path, under its header if it has one -/
def sectionLines (path : List Text) : Toml → List Line
  | .table entries =>
    (if hasHeader entries then .header path :: plainEntries entries else []) ++
      sectionsLines path entries
  | _ => []

/-- the tables among the entries of a table -/
def sectionsLines (path : List Text) : List (Text × Toml) → List Line
  | [] => []
  | (k, v) :: r => sectionLines (path ++ [k]) v ++ sectionsLines path r

end

def documentLines (entries : List (Text × Toml)) : List Line :=
  plainEntries entries ++ sectionsLines [] entries

theorem plainLines_eq (entries : List (Text × Toml)) :
    plainLines entries = (plainEntries entries).flatMap Line.text := by
  unfold plainLines plainEntries
  rw [List.flatMap_map]
  rfl

mutual

theorem sectionText_eq (path : List Text) (v : Toml) :
    sectionText path v = (sectionLines path v).flatMap Line.text := by
  match v with
  | .table entries =>
    rw [sectionText, sectionLines, sectionsText_eq path entries, List.flatMap_append]
    split
    · rw [List.flatMap_cons, ← plainLines_eq]
      rfl
    · rfl
  | .string _ => rfl
  | .boolean _ => rfl
  | .number _ => rfl
  | .date _ => rfl
  | .array _ => rfl

theorem sectionsText_eq (path : List Text) (entries : List (Text × Toml)) :
    sectionsText path entries = (sectionsLines path entries).flatMap Line.text := by
  match entries with
  | [] => rfl
  | (k, v) :: r =>
    rw [sectionsText, sectionsLines, sectionText_eq (path ++ [k]) v, sectionsText_eq path r,
      List.flatMap_append]

end

theorem sectionsLines_eq (path : List Text) (entries : List (Text × Toml)) :
    sectionsLines path entries = entries.flatMap fun e => sectionLines (path ++ [e.1]) e.2 := by
  induction entries with
  | nil => rfl
  | cons e entries ih =>
    rw [sectionsLines, ih, List.flatMap_cons]

theorem line_text_ne_nil (l : Line) : l.text ≠ [] := by
  cases l with
  | header path => exact List.cons_ne_nil _ _
  | entry key v =>
    obtain ⟨c, r, hkey, -⟩ := keyText_opens key
    show keyText key ++ _ ++ _ ++ _ ≠ []
    rw [hkey]
    exact List.cons_ne_nil _ _

/-- a document with a plain value is its lines -/
theorem documentText_eq {entries : List (Text × Toml)} (h : plainEntries entries ≠ []) :
    documentText entries = (documentLines entries).flatMap Line.text := by
  have hplain : (plainLines entries).isEmpty = false := by
    obtain ⟨l, ls, hl⟩ := List.exists_cons_of_ne_nil h
    rw [plainLines_eq, hl, List.flatMap_cons, List.isEmpty_eq_false_iff]
    exact List.append_ne_nil_of_left_ne_nil (line_text_ne_nil l) _
  unfold documentText documentLines
  dsimp only
  rw [hplain, plainLines_eq, sectionsText_eq, List.flatMap_append]
  rfl

/-! ## tables -/

/-- a table as it is laid out: plain values, then tables laid out alike, with no key twice -/
inductive Laid : List (Text × Toml) → Prop where
  | mk {plain : List (Text × Toml)} {tables : List (Text × List (Text × Toml))}
      (hplain : ∀ e ∈ plain, Plain e.2) (htables : ∀ e ∈ tables, Laid e.2)
      (hkeys : (plain.map (·.1) ++ tables.map (·.1)).Nodup) :
      Laid (plain ++ tables.map fun e => (e.1, .table e.2))

theorem Plain.not_isTable {v : Toml} (h : Plain v) : isTable v = false := by
  cases h with
  | string t => rfl
  | boolean b => rfl
  | texts ts => rfl

theorem Plain.sectionLines_eq {v : Toml} (h : Plain v) (path : List Text) :
    sectionLines path v = [] := by
  cases h with
  | string t => rfl
  | boolean b => rfl
  | texts ts => rfl

section
variable {plain : List (Text × Toml)} (tables : List (Text × List (Text × Toml)))

theorem plainEntries_laid (hplain : ∀ e ∈ plain, Plain e.2) :
    plainEntries (plain ++ tables.map fun e => (e.1, .table e.2)) =
      plain.map fun e => .entry e.1 e.2 := by
  have hfilter : (plain.filter fun e => !isTable e.2) = plain :=
    List.filter_eq_self.mpr fun e he => by rw [(hplain e he).not_isTable]; rfl
  have hnone : ((tables.map fun e => (e.1, Toml.table e.2)).filter fun e => !isTable e.2) = [] := by
    rw [List.filter_eq_nil_iff]
    rintro e he
    obtain ⟨t, -, rfl⟩ := List.mem_map.mp he
    exact Bool.false_ne_true
  unfold plainEntries
  rw [List.filter_append, hfilter, hnone, List.append_nil]

theorem sectionsLines_laid (hplain : ∀ e ∈ plain, Plain e.2) (path : List Text) :
    sectionsLines path (plain ++ tables.map fun e => (e.1, .table e.2)) =
      tables.flatMap fun e => sectionLines (path ++ [e.1]) (.table e.2) := by
  have hnone : (plain.flatMap fun e => sectionLines (path ++ [e.1]) e.2) = [] :=
    List.flatMap_eq_nil_iff.mpr fun e he => (hplain e he).sectionLines_eq _
  rw [sectionsLines_eq, List.flatMap_append, hnone, List.flatMap_map]
  rfl

end

/-- only a table of nothing but tables has no header -/
theorem nothing_but_tables {plain : List (Text × Toml)} {tables : List (Text × List (Text × Toml))}
    (hplain : ∀ e ∈ plain, Plain e.2)
    (h : hasHeader (plain ++ tables.map fun e => (e.1, .table e.2)) = false) :
    plain = [] ∧ tables ≠ [] := by
  unfold hasHeader at h
  rw [Bool.or_eq_false_iff, List.any_eq_false] at h
  constructor
  · refine List.eq_nil_iff_forall_not_mem.mpr fun e he => h.2 e (List.mem_append_left _ he) ?_
    rw [(hplain e he).not_isTable]
    rfl
  · rintro rfl
    rw [List.map_nil, List.append_nil] at h
    cases plain with
    | nil => exact nomatch h.1
    | cons e plain =>
      refine h.2 e List.mem_cons_self ?_
      rw [(hplain e List.mem_cons_self).not_isTable]
      rfl

/-! ## the depth of headers -/

/-- whether the reader takes every header of a table at a path -/
def FitsAt (path : List Text) (v : Toml) : Prop := ∀ l ∈ sectionLines path v, l.Fits

theorem fitsAt_of_plain {v : Toml} (h : Plain v) (path : List Text) : FitsAt path v := by
  unfold FitsAt
  rw [h.sectionLines_eq]
  exact nofun

section
variable {entries : List (Text × Toml)} {path : List Text}

theorem fits_of_plainEntries {l : Line} (h : l ∈ plainEntries entries) : l.Fits := by
  obtain ⟨e, -, rfl⟩ := List.mem_map.mp h
  trivial

theorem forall_sectionsLines {p : Line → Prop} :
    (∀ l ∈ sectionsLines path entries, p l) ↔
      ∀ e ∈ entries, ∀ l ∈ sectionLines (path ++ [e.1]) e.2, p l := by
  rw [sectionsLines_eq]
  constructor
  · intro h e he l hl
    exact h l (List.mem_flatMap.mpr ⟨e, he, hl⟩)
  · intro h l hl
    obtain ⟨e, he, hl⟩ := List.mem_flatMap.mp hl
    exact h e he l hl

/-- a header that is not too long leaves the tables inside to decide -/
theorem fitsAt_table (h : path.length ≤ maxKeyParts) :
    FitsAt path (.table entries) ↔ ∀ e ∈ entries, FitsAt (path ++ [e.1]) e.2 := by
  unfold FitsAt
  rw [sectionLines, ← forall_sectionsLines, List.forall_mem_append]
  refine and_iff_right fun l hl => ?_
  split at hl
  · rcases List.mem_cons.mp hl with rfl | hl
    · exact h
    · exact fits_of_plainEntries hl
  · cases hl

theorem fits_documentLines :
    (∀ l ∈ documentLines entries, l.Fits) ↔ ∀ e ∈ entries, FitsAt [e.1] e.2 := by
  unfold documentLines
  rw [List.forall_mem_append, forall_sectionsLines]
  exact and_iff_right fun l hl => fits_of_plainEntries hl

/-- a table has a header, or some table inside has one that is longer -/
theorem not_fitsAt_of_laid (h : Laid entries) (hpath : maxKeyParts < path.length) :
    ¬ FitsAt path (.table entries) := by
  induction h generalizing path with
  | @mk plain tables hplain htables hkeys ih =>
    intro hfits
    cases hheader : hasHeader (plain ++ tables.map fun e => (e.1, .table e.2)) with
    | true =>
      have hfirst : Line.header path ∈ sectionLines path
          (.table (plain ++ tables.map fun e => (e.1, .table e.2))) := by
        rw [sectionLines, hheader, if_pos rfl]
        exact List.mem_cons_self
      exact Nat.not_le_of_lt hpath (hfits _ hfirst)
    | false =>
      obtain ⟨rfl, hne⟩ := nothing_but_tables hplain hheader
      obtain ⟨e, rest, rfl⟩ := List.exists_cons_of_ne_nil hne
      have hlonger : maxKeyParts < (path ++ [e.1]).length := by
        rw [List.length_append]
        exact Nat.lt_add_right _ hpath
      refine ih e List.mem_cons_self hlonger fun l hl => hfits l ?_
      rw [sectionLines, sectionsLines_laid _ hplain]
      exact List.mem_append_right _ (List.mem_append_left _ hl)

end

/-! ## places -/

section
variable {k : Text} {pre : List (Text × Node)}

/-- an entry under a new key comes last -/
theorem change?_new (h : k ∉ pre.map (·.1)) (f : Option Node → Option Node) :
    change? k f pre = (f none).map fun n => pre ++ [(k, n)] := by
  induction pre with
  | nil => rfl
  | cons e pre ih =>
    rw [List.map_cons, List.mem_cons, not_or] at h
    rw [change?, if_neg (Ne.symm h.1), ih h.2, Option.map_map]
    rfl

theorem change?_last (h : k ∉ pre.map (·.1)) (n : Node) (f : Option Node → Option Node) :
    change? k f (pre ++ [(k, n)]) = (f (some n)).map fun n => pre ++ [(k, n)] := by
  induction pre with
  | nil =>
    show (if k = k then _ else _) = _
    rw [if_pos rfl]
    rfl
  | cons e pre ih =>
    rw [List.map_cons, List.mem_cons, not_or] at h
    rw [List.cons_append, change?, if_neg (Ne.symm h.1), ih h.2, Option.map_map]
    rfl

/-- of distinct keys to add, the first one is new, and the others still are once it is there -/
theorem nodup_added {ks : List Text} (h : (pre.map (·.1) ++ k :: ks).Nodup) :
    k ∉ pre.map (·.1) ∧ ∀ n : Node, ((pre ++ [(k, n)]).map (·.1) ++ ks).Nodup := by
  rw [List.append_cons] at h
  refine ⟨fun hin => ?_, fun n => ?_⟩
  · exact (List.nodup_append.mp (List.nodup_append.mp h).1).2.2 _ hin _ List.mem_cons_self rfl
  · rw [List.map_append]
    exact h

theorem changeAt?_append (f : Bool → List (Text × Node) → Option (List (Text × Node)))
    (path path' : List Text) (isDotted : Bool) (root : List (Text × Node)) :
    changeAt? false f (path ++ path') isDotted root =
      changeAt? false (changeAt? false f path') path isDotted root := by
  induction path generalizing isDotted root with
  | nil => rfl
  | cons k path ih =>
    rw [List.cons_append, changeAt?, changeAt?]
    congr 1
    funext old
    match old with
    | none => exact congrArg (Option.map _) (ih false [])
    | some (.table implied isDotted inner) => exact congrArg (Option.map _) (ih isDotted inner)
    | some (.tables (last :: others)) => exact congrArg (Option.map _) (ih false last)
    | some (.tables []) => rfl
    | some (.done v) => rfl

end

/-- a path leads to a table whose entries `put` puts in place -/
def Leads (path : List Text) (put : List (Text × Node) → List (Text × Node)) : Prop :=
  ∀ f entries, changeAt? false f path false (put entries) = (f false entries).map put

/-- a path leads from a root to these entries, or it can be made there when there are none -/
def Reaches (path : List Text) (root entries : List (Text × Node))
    (put : List (Text × Node) → List (Text × Node)) : Prop :=
  ∀ f, changeAt? false f path false root = (f false entries).map put

theorem leads_nil : Leads [] id := fun f entries => (congrFun Option.map_id (f false entries)).symm

section
variable {path : List Text} {put : List (Text × Node) → List (Text × Node)} {k : Text}
  {root pre : List (Text × Node)}

theorem Leads.reaches (h : Leads path put) (entries : List (Text × Node)) :
    Reaches path (put entries) entries put := fun f => h f entries

theorem Leads.down (h : Leads path put) (hk : k ∉ pre.map (·.1)) (implied : Bool) :
    Leads (path ++ [k]) fun entries => put (pre ++ [(k, .table implied false entries)]) := by
  intro f entries
  rw [changeAt?_append, h]
  show (change? k _ (pre ++ [(k, .table implied false entries)])).map put = _
  rw [change?_last hk, Option.map_map]
  exact Option.map_map _ _ _

/-- tables on the way are made -/
theorem Reaches.down (h : Reaches path root pre put) (hk : k ∉ pre.map (·.1)) :
    Reaches (path ++ [k]) root [] fun entries => put (pre ++ [(k, .table true false entries)]) := by
  intro f
  rw [changeAt?_append, h]
  show (change? k _ pre).map put = _
  rw [change?_new hk, Option.map_map]
  exact Option.map_map _ _ _

/-- the header of a new table -/
theorem Reaches.header (h : Reaches path root pre put) (hk : k ∉ pre.map (·.1)) (here : List Text) :
    Reading.add? ⟨root, here⟩ (.header (path ++ [k])) =
      some ⟨put (pre ++ [(k, .table false false [])]), path ++ [k]⟩ := by
  unfold Reading.add?
  dsimp only
  rw [List.getLast?_concat, List.dropLast_concat]
  show (changeAt? false _ path false root).bind _ = _
  rw [h, change?_new hk]
  rfl

/-- a value under a new key -/
theorem Leads.entry (h : Leads path put) (hk : k ∉ pre.map (·.1)) (v : Toml) :
    Reading.add? ⟨put pre, path⟩ (Line.statement (.entry k v)) =
      some ⟨put (pre ++ [(k, .done v)]), path⟩ := by
  show (changeAt? false (fun _ entries => assign? [] k v entries) path false (put pre)).bind _ = _
  rw [h]
  show ((change? k _ pre).map put).bind _ = _
  rw [change?_new hk]
  rfl

/-- values under new keys -/
theorem Leads.entries (h : Leads path put) {plain : List (Text × Toml)}
    (hkeys : (pre.map (·.1) ++ plain.map (·.1)).Nodup) :
    (plain.map fun e => Line.statement (.entry e.1 e.2)).foldlM Reading.add? ⟨put pre, path⟩ =
      some ⟨put (pre ++ plain.map fun e => (e.1, .done e.2)), path⟩ := by
  induction plain generalizing pre with
  | nil =>
    show some _ = some _
    rw [List.map_nil, List.append_nil]
  | cons e plain ih =>
    obtain ⟨hk, hrest⟩ := nodup_added hkeys
    rw [List.map_cons, List.foldlM_cons, h.entry hk]
    show (plain.map fun e => Line.statement (.entry e.1 e.2)).foldlM Reading.add? _ = _
    rw [ih (hrest _), List.append_assoc]
    rfl

end

/-! ## what the lines of a table add -/

theorem entryValues_append (a b : List (Text × Node)) :
    entryValues (a ++ b) = entryValues a ++ entryValues b := by
  induction a with
  | nil => rfl
  | cons e a ih => exact congrArg ((e.1, e.2.value) :: ·) ih

theorem entryValues_done (plain : List (Text × Toml)) :
    entryValues (plain.map fun e => (e.1, .done e.2)) = plain := by
  induction plain with
  | nil => rfl
  | cons e plain ih => exact congrArg (e :: ·) ih

/-- lines added one after the other -/
def addLines (s : Reading) (ls : List Line) : Option Reading :=
  (ls.map Line.statement).foldlM Reading.add? s

theorem addLines_append (s : Reading) (ls ls' : List Line) :
    addLines s (ls ++ ls') = (addLines s ls).bind fun s => addLines s ls' := by
  unfold addLines
  rw [List.map_append, List.foldlM_append]
  rfl

/-- wherever the table stands, its lines add it at the end of the entries that its path leads to, and
nothing else -/
def Settles (entries : List (Text × Toml)) : Prop :=
  ∀ path put root pre k here, Leads path put → Reaches path root pre put → k ∉ pre.map (·.1) →
    ∃ implied nodes here', entryValues nodes = entries ∧
      addLines ⟨root, here⟩ (sectionLines (path ++ [k]) (.table entries)) =
        some ⟨put (pre ++ [(k, .table implied false nodes)]), here'⟩

section
variable {path : List Text} {put : List (Text × Node) → List (Text × Node)}
  {root pre : List (Text × Node)}

/-- tables that settle do so one after the other -/
theorem addLines_tables {tables : List (Text × List (Text × Toml))} (h : ∀ e ∈ tables, Settles e.2)
    (hput : Leads path put) (hroot : Reaches path root pre put) (hnil : tables = [] → root = put pre)
    (hkeys : (pre.map (·.1) ++ tables.map (·.1)).Nodup) (here : List Text) :
    ∃ nodes here', entryValues nodes = (tables.map fun e => (e.1, .table e.2)) ∧
      addLines ⟨root, here⟩ (tables.flatMap fun e => sectionLines (path ++ [e.1]) (.table e.2)) =
        some ⟨put (pre ++ nodes), here'⟩ := by
  induction tables generalizing root pre here with
  | nil =>
    obtain rfl := hnil rfl
    refine ⟨[], here, rfl, ?_⟩
    show some _ = some _
    rw [List.append_nil]
  | cons e tables ih =>
    obtain ⟨hk, hrest⟩ := nodup_added hkeys
    obtain ⟨implied, inner, here₁, hinner, hadd⟩ := h e List.mem_cons_self _ _ _ _ _ here hput hroot hk
    obtain ⟨nodes, here₂, hnodes, hadds⟩ := ih (fun e' he' => h e' (List.mem_cons_of_mem _ he'))
      (hput.reaches _) (fun _ => rfl) (hrest _) here₁
    refine ⟨(e.1, .table implied false inner) :: nodes, here₂, ?_, ?_⟩
    · show (e.1, Toml.table (entryValues inner)) :: entryValues nodes = _
      rw [hinner, hnodes]
      rfl
    · rw [List.flatMap_cons, addLines_append, hadd, Option.bind_some, hadds, List.append_assoc]
      rfl

/-- the plain values of a table and then its tables -/
theorem addLines_laid {plain : List (Text × Toml)} {tables : List (Text × List (Text × Toml))}
    (hplain : ∀ e ∈ plain, Plain e.2) (htables : ∀ e ∈ tables, Settles e.2)
    (hkeys : (plain.map (·.1) ++ tables.map (·.1)).Nodup) (hput : Leads path put) :
    ∃ nodes here', entryValues nodes = (plain ++ tables.map fun e => (e.1, .table e.2)) ∧
      addLines ⟨put [], path⟩ (plainEntries (plain ++ tables.map fun e => (e.1, .table e.2)) ++
        sectionsLines path (plain ++ tables.map fun e => (e.1, .table e.2))) =
          some ⟨put nodes, here'⟩ := by
  have hentries : addLines ⟨put [], path⟩ (plain.map fun e => .entry e.1 e.2) =
      some ⟨put (plain.map fun e => (e.1, .done e.2)), path⟩ := by
    unfold addLines
    rw [List.map_map]
    exact hput.entries (List.nodup_append.mp hkeys).1
  have hall : ((plain.map fun e => (e.1, Node.done e.2)).map (·.1) ++ tables.map (·.1)).Nodup := by
    rw [List.map_map]
    exact hkeys
  obtain ⟨nodes, here', hnodes, hadd⟩ := addLines_tables htables hput (hput.reaches _)
    (fun _ => rfl) hall path
  refine ⟨(plain.map fun e => (e.1, .done e.2)) ++ nodes, here', ?_, ?_⟩
  · rw [entryValues_append, entryValues_done, hnodes]
  · rw [plainEntries_laid tables hplain, sectionsLines_laid tables hplain, addLines_append, hentries,
      Option.bind_some, hadd]

end

theorem Laid.settles {entries : List (Text × Toml)} (h : Laid entries) : Settles entries := by
  induction h with
  | @mk plain tables hplain htables hkeys ih =>
    intro path put root pre k here hput hroot hk
    cases hheader : hasHeader (plain ++ tables.map fun e => (e.1, .table e.2)) with
    | true =>
      obtain ⟨nodes, here', hnodes, hadd⟩ := addLines_laid hplain ih hkeys (hput.down hk false)
      refine ⟨false, nodes, here', hnodes, ?_⟩
      rw [sectionLines, hheader, if_pos rfl]
      show (Reading.add? ⟨root, here⟩ (.header (path ++ [k]))).bind (fun s => addLines s _) = _
      rw [hroot.header hk here]
      exact hadd
    | false =>
      -- the table is made on the way to the first table inside
      obtain ⟨rfl, hne⟩ := nothing_but_tables hplain hheader
      obtain ⟨nodes, here', hnodes, hadd⟩ := addLines_tables ih (hput.down hk true) (hroot.down hk)
        (fun h => absurd h hne) hkeys here
      refine ⟨true, nodes, here', hnodes, ?_⟩
      rw [sectionLines, hheader, if_neg Bool.false_ne_true, sectionsLines_laid tables hplain]
      exact hadd

/-! ## the whole -/

theorem written_of_laid {entries : List (Text × Toml)} (h : Laid entries) (path : List Text) :
    (∀ l ∈ plainEntries entries, l.Written) ∧ ∀ l ∈ sectionsLines path entries, l.Written := by
  induction h generalizing path with
  | @mk plain tables hplain htables hkeys ih =>
    rw [plainEntries_laid tables hplain, sectionsLines_laid tables hplain]
    constructor
    · intro l hl
      obtain ⟨e, he, rfl⟩ := List.mem_map.mp hl
      exact .entry _ (hplain e he)
    · intro l hl
      obtain ⟨e, he, hin⟩ := List.mem_flatMap.mp hl
      obtain ⟨hentries, hsections⟩ := ih e he (path ++ [e.1])
      rw [sectionLines, List.mem_append] at hin
      rcases hin with hin | hin
      · split at hin
        · rcases List.mem_cons.mp hin with rfl | hin
          · exact .header (List.append_ne_nil_of_right_ne_nil _ (List.cons_ne_nil _ _))
          · exact hentries l hin
        · cases hin
      · exact hsections l hin

theorem length_le_text (ls : List Line) : ls.length ≤ (ls.flatMap Line.text).length := by
  induction ls with
  | nil => exact Nat.le_refl 0
  | cons l ls ih =>
    have := List.length_pos_iff.mpr (line_text_ne_nil l)
    rw [List.flatMap_cons, List.length_append, List.length_cons]
    omega

/-- a plain value opens the document with a key, and not with the mark of a file -/
theorem dropMark_documentText {entries : List (Text × Toml)} (h : plainEntries entries ≠ []) :
    dropMark (documentText entries) = documentText entries := by
  obtain ⟨l, ls, hl⟩ := List.exists_cons_of_ne_nil h
  obtain ⟨e, -, rfl⟩ : ∃ e ∈ entries.filter (fun e => !isTable e.2), Line.entry e.1 e.2 = l :=
    List.mem_map.mp (show l ∈ plainEntries entries from hl ▸ List.mem_cons_self)
  obtain ⟨c, r, hkey, hc⟩ := keyText_opens e.1
  have htext : documentText entries = c :: (r ++ " = ".toList ++ valueText e.2 ++ ['\n'] ++
      (ls.flatMap Line.text ++ (sectionsLines [] entries).flatMap Line.text)) := by
    rw [documentText_eq h, documentLines, hl, List.flatMap_append, List.flatMap_cons, List.append_assoc]
    show keyText e.1 ++ _ ++ _ ++ _ ++ _ = _
    rw [hkey]
    rfl
  have hmark : c ≠ '\uFEFF' := hc.ne (by decide) (by decide) (by decide)
  rw [htext]
  unfold dropMark
  split
  · next heq => exact absurd (List.cons.inj heq).1 hmark
  · rfl

/-- **A table with plain values is read back from its document**, unless the path of some header has
more parts than the reader takes. -/
theorem read?_documentText {entries : List (Text × Toml)} (h : Laid entries)
    (hne : plainEntries entries ≠ []) :
    read? (documentText entries) =
      if ∀ l ∈ documentLines entries, l.Fits then some entries else none := by
  have hwritten : ∀ l ∈ documentLines entries, l.Written := by
    obtain ⟨hentries, hsections⟩ := written_of_laid h []
    intro l hl
    rcases List.mem_append.mp hl with hl | hl
    · exact hentries l hl
    · exact hsections l hl
  have hread : statements? ((documentText entries).length + 1) (documentText entries) =
      if ∀ l ∈ documentLines entries, l.Fits then some ((documentLines entries).map Line.statement)
      else none := by
    rw [documentText_eq hne]
    exact statements?_lines hwritten (Nat.lt_succ_of_le (length_le_text _))
  unfold read?
  dsimp only
  rw [dropMark_documentText hne, hread]
  by_cases hfits : ∀ l ∈ documentLines entries, l.Fits
  · cases h with
    | @mk plain tables hplain htables hkeys =>
      obtain ⟨nodes, here', hnodes, hadd⟩ := addLines_laid hplain (fun e he => (htables e he).settles)
        hkeys leads_nil
      rw [if_pos hfits, if_pos hfits]
      show (addLines ⟨id [], []⟩ (documentLines _)).bind _ = _
      rw [documentLines, hadd, ← hnodes]
      rfl
  · rw [if_neg hfits, if_neg hfits]
    rfl

end SiteBundle.Toml
