import LayerFs.Glob.Walk

/-!
# Pruned walks show the same matches

A glob walks only the folders that agree with its pattern's leading folders, from these folders when
it starts above them. Nothing that matches is hidden: a match begins with the leading folders, and so
do the folders on its way. But the jump reads the folders as a path, where an empty name counts for
nothing, and goes on with their own spelling: below `a//b` it shows `/a//b/c`, which `a//b/*` matches,
where the full walk shows `/a/b/c`, which it does not.

* `matched_shown_leading` — **pruning hides no match** below the folder a walk starts at.
* `pruned_exact_iff` — **the pruned walk shows exactly the full walk's matches**, unless its folders
  are misspelt.
-/

namespace LayerFs.Glob

open List

variable {Id : Type}
variable {entry : EntryFacts Id} {a b p : List PathName} {folders path pattern : List ℕ}
  {ns : Namespace Id} {d fuel s : ℕ} (names : List PathName) (name : PathName)

/-! ## Texts of names -/

theorem bytes_ne_nil : name.bytes ≠ [] := by
  have h := name.valid
  simp only [validateName, check_bind_eq_ok, ensure_eq_ok] at h
  intro hnil
  rw [hnil] at h
  exact absurd h.1 (by decide)

theorem slash_not_mem : slash ∉ name.bytes := by
  have h := name.valid
  simp only [validateName, check_bind_eq_ok, ensure_eq_ok, Bool.and_eq_true, Bool.not_eq_true'] at h
  intro hmem
  have hnone : name.bytes.contains slash = false := h.2.2.2.1.2
  rw [contains_iff_mem.mpr hmem] at hnone
  cases hnone

/-- A folder's path without its first `/`, behind which its names stand. -/
def asFolder (text : List ℕ) : List ℕ := if text = [] then [] else text ++ [slash]

/-- Folder names, each with the `/` behind it. -/
def folderText (names : List PathName) : List ℕ := names.flatMap fun name => name.bytes ++ [slash]

theorem agrees_iff :
    agrees folders path = true ↔
      asFolder (trim path) <+: folders ∨ folders <+: asFolder (trim path) := by
  rw [agrees, Bool.or_eq_true, isPrefixOf_iff_prefix, isPrefixOf_iff_prefix, asFolder]
  simp only [List.isEmpty_iff]

theorem trim_bytes (rest : List ℕ) : trim (name.bytes ++ rest) = name.bytes ++ rest := by
  rcases hbytes : name.bytes with _ | ⟨byte, more⟩
  · exact absurd hbytes (bytes_ne_nil name)
  · have hbyte : byte ≠ slash := by
      rintro rfl
      exact slash_not_mem name (hbytes ▸ mem_cons_self)
    rw [cons_append, trim, dropWhile_cons_of_neg (by simpa using hbyte)]

theorem trim_join (path : List ℕ) (name : PathName) :
    trim (join path name) = asFolder (trim path) ++ name.bytes := by
  have hname := trim_bytes name []
  rw [append_nil] at hname
  have hslash : trim (slash :: name.bytes) = name.bytes := by
    rw [trim, dropWhile_cons_of_pos (by simp)]
    exact hname
  rw [join, asFolder]
  split_ifs with hroot hall hall
  · exact hslash
  · rw [hroot] at hall
    exact absurd rfl hall
  · rw [trim, dropWhile_append, show path.dropWhile (· == slash) = [] from hall]
    exact hslash
  · rw [trim, dropWhile_append, if_neg (by simpa [List.isEmpty_iff, trim] using hall)]
    simp [trim]

/-- **The folder names below a path** stand behind those of the path. -/
theorem asFolder_spell : ∀ path : List ℕ,
    asFolder (trim (spell path names)) = asFolder (trim path) ++ folderText names := by
  induction names with
  | nil => intro path; simp [spell, folderText]
  | cons name names ih =>
    intro path
    have hjoin : asFolder (trim (join path name)) =
        asFolder (trim path) ++ (name.bytes ++ [slash]) := by
      rw [trim_join, asFolder, if_neg (by simp [bytes_ne_nil name]), append_assoc]
    rw [spell, foldl_cons, ← spell, ih, hjoin, folderText, folderText, flatMap_cons,
      append_assoc, append_assoc]

theorem prefix_asFolder (text : List ℕ) : text <+: asFolder text := by
  rw [asFolder]
  split_ifs with h
  · rw [h]
  · exact prefix_append _ _

theorem asFolder_prefix_spell {names : List PathName} (hne : names ≠ []) : ∀ path : List ℕ,
    asFolder (trim path) <+: trim (spell path names) := by
  induction names with
  | nil => exact absurd rfl hne
  | cons name names ih =>
    intro path
    have hfirst : asFolder (trim path) <+: trim (join path name) := by
      rw [trim_join]
      exact prefix_append _ _
    rcases hnames : names with _ | ⟨next, more⟩
    · exact hfirst
    · rw [← hnames]
      exact hfirst.trans ((prefix_asFolder _).trans
        (ih (by rw [hnames]; exact cons_ne_nil _ _) (join path name)))

/-! ## Pruning hides no match -/

theorem agrees_of_begins {text : List ℕ} (hfolders : folders <+: text)
    (hpath : asFolder (trim path) <+: text) : agrees folders path = true :=
  agrees_iff.mpr ( prefix_or_prefix_of_prefix hpath hfolders)

theorem admitted_of_begins {names : List PathName} : ∀ {path : List ℕ},
    folders <+: trim (spell path names) → admitted (some folders) path names = true := by
  induction names with
  | nil => exact fun _ => rfl
  | cons name names ih =>
    intro path hfolders
    rcases hnames : names with _ | ⟨next, more⟩
    · simp [admitted]
    · rw [← hnames, admitted, Bool.or_eq_true, Bool.and_eq_true]
      have hne : names ≠ [] := by rw [hnames]; exact cons_ne_nil _ _
      exact .inr ⟨agrees_of_begins hfolders (asFolder_prefix_spell hne _), ih hfolders⟩

def matched (pattern : List ℕ) (out : List (List ℕ × EntryFacts Id)) : List (List ℕ) :=
  (out.map Prod.fst).filter (parse pattern).matchesPath

theorem matched_shown {folders : Option (List ℕ)} :
    matched pattern (shown ns folders path d) =
      ((entriesBelow ns d).filter fun e => (parse pattern).matchesPath (spell path e.1) &&
        admitted folders path e.1).map fun e => spell path e.1 := by
  rw [matched, shown, map_map, filter_map, filter_filter]
  rfl

theorem admitted_none {names : List PathName} : ∀ {path : List ℕ},
    admitted none path names = true := by
  induction names with
  | nil => exact fun {_} => rfl
  | cons name names ih =>
    intro path
    simp [admitted, ih]

/-- **Pruning hides no match** below the folder a walk starts at. -/
theorem matched_shown_leading (hfolders : leading pattern = some folders) :
    matched pattern (shown ns (some folders) path d) = matched pattern (shown ns none path d) := by
  rw [matched_shown, matched_shown]
  congr 1
  refine filter_congr fun e _ => ?_
  rcases hmatch : (parse pattern).matchesPath (spell path e.1) with _ | _
  · rfl
  · rw [admitted_none, admitted_of_begins (matchesPath_leading hfolders hmatch)]

theorem matched_shown_of_not_agrees (hfolders : leading pattern = some folders)
    (hnot : agrees folders path = false) : matched pattern (shown ns none path d) = [] := by
  rw [matched_shown, map_eq_nil_iff, filter_eq_nil_iff]
  intro e he hmatch
  rw [Bool.and_eq_true] at hmatch
  have hagrees := agrees_of_begins (matchesPath_leading hfolders hmatch.1)
    (asFolder_prefix_spell (ne_nil_of_mem_entriesBelow he) path)
  rw [hnot] at hagrees
  cases hagrees

/-! ## Folders deeper down -/

theorem flatMap_single {α : Type} {rows : List (PathName × ℕ)} (h : Ascending rows)
    {name : PathName} {serial : ℕ} (hmem : (name, serial) ∈ rows) {f : PathName × ℕ → List α}
    (hothers : ∀ row ∈ rows, row.1 ≠ name → f row = []) : rows.flatMap f = f (name, serial) := by
  obtain ⟨before, after, rfl⟩ := append_of_mem hmem
  rw [Ascending, pairwise_append, pairwise_cons] at h
  have hbefore : before.flatMap f = [] := flatMap_eq_nil_iff.mpr fun row hrow =>
    hothers row (mem_append_left _ hrow) (ne_of_lt (h.2.2 row hrow _ mem_cons_self))
  have hafter : after.flatMap f = [] := flatMap_eq_nil_iff.mpr fun row hrow =>
    hothers row (mem_append_right _ (mem_cons_of_mem _ hrow))
      (ne_of_gt (h.2.1.1 row hrow))
  rw [flatMap_append, flatMap_cons, hbefore, hafter, nil_append, append_nil]

theorem head_of_mem_rowEntries {below : ℕ → List (List PathName × EntryFacts Id)}
    {row : PathName × ℕ} {e : List PathName × EntryFacts Id} (he : e ∈ rowEntries ns below row) :
    ∃ rest, e.1 = row.1 :: rest := by
  rw [rowEntries] at he
  split at he
  · cases he
  · rcases mem_cons.mp he with rfl | he
    · exact ⟨[], rfl⟩
    · split_ifs at he
      · obtain ⟨e', -, rfl⟩ := mem_map.mp he
        exact ⟨e'.1, rfl⟩
      · cases he

theorem resolve_cons {name : PathName} {names : List PathName} :
    ns.resolve s (name :: names) = some d ↔ s ∈ ns.directories ∧
      ∃ child, (ns.listing s).lookup name = some child ∧ ns.resolve child names = some d := by
  rw [Namespace.resolve.eq_def]
  dsimp only
  split_ifs with hs
  · rcases (ns.listing s).lookup name with _ | child
    · simp
    · simp [hs]
  · simp [hs]

/-- **The entries of a folder deeper down**, among those of the folder it is resolved from. -/
theorem entriesBelow_jump {ns : Namespace Id} (h : ns.ValidBase) {d : ℕ}
    (hd : d ∈ ns.directories) {names : List PathName} :
    ∀ {s : ℕ} {keep : List PathName → Bool}, ns.resolve s names = some d →
      (∀ r, keep r = true → ∃ t, t ≠ [] ∧ r = names ++ t) →
      (entriesBelow ns s).filter (fun e => keep e.1) =
        ((entriesBelow ns d).filter fun e => keep (names ++ e.1)).map
          fun e => (names ++ e.1, e.2) := by
  induction names with
  | nil =>
    intro s keep hresolve _
    obtain rfl := Option.some.inj hresolve
    simp
  | cons name names ih =>
    intro s keep hresolve hkeep
    obtain ⟨hs, child, hlookup, hresolve⟩ := resolve_cons.mp hresolve
    have hasc := h.names_ascending s hs
    have hrow := hasc.mem_iff_lookup.mpr hlookup
    rw [entriesBelow_eq h hs, filter_flatMap, flatMap_single hasc hrow]
    · obtain ⟨value, hvalue⟩ := lookup_of_mem_listing h hs hrow
      have hfirst : keep [name] = false := by
        rw [← Bool.not_eq_true]
        intro hkept
        obtain ⟨t, ht, heq⟩ := hkeep _ hkept
        have hlength := congrArg List.length heq
        rw [length_singleton, length_append, length_cons] at hlength
        exact ht (length_eq_zero_iff.mp (by omega))
      -- a folder with more names behind it is a directory
      have hkind : value.kind = .directory := by
        have hchild : child ∈ ns.directories := by
          rcases names with _ | ⟨next, names⟩
          · obtain rfl := Option.some.inj hresolve
            exact hd
          · exact (resolve_cons.mp hresolve).1
        obtain ⟨value', hvalue', hkind⟩ := (mem_directories_iff_lookup h).mp hchild
        rw [hvalue] at hvalue'
        exact Option.some.inj hvalue' ▸ hkind
      rw [rowEntries, hvalue]
      dsimp only
      rw [filter_cons, hfirst, if_neg Bool.false_ne_true, if_pos hkind, filter_map]
      have hrest := @ih child (fun r => keep (name :: r)) hresolve ?_
      · rw [show (entriesBelow ns child).filter ((fun e => keep e.1) ∘ fun e => (name :: e.1, e.2))
          = _ from hrest, map_map]
        rfl
      · intro r hr
        obtain ⟨t, ht, heq⟩ := hkeep _ hr
        exact ⟨t, ht, cons_injective heq⟩
    · intro row _ hne
      rw [filter_eq_nil_iff]
      intro e he hkept
      obtain ⟨rest, hfirst⟩ := head_of_mem_rowEntries he
      obtain ⟨t, -, heq⟩ := hkeep _ hkept
      rw [hfirst, cons_append] at heq
      exact hne (head_eq_of_cons_eq heq)

/-! ## Names and texts -/

theorem folderText_cons (names : List PathName) :
    folderText (name :: names) = (name.bytes ++ [slash]) ++ folderText names := by
  rw [folderText, flatMap_cons, ← folderText]

theorem folderText_concat :
    folderText (names ++ [name]) = folderText names ++ name.bytes ++ [slash] := by
  simp [folderText]

/-- **A text of folders ends with whole names** when it ends with a `/`. -/
theorem folders_of_begins {names : List PathName} : ∀ {text : List ℕ}, text <+: folderText names →
    (∀ byte ∈ text.getLast?, byte = slash) → ∃ k t, names = k ++ t ∧ text = folderText k := by
  induction names with
  | nil =>
    intro text htext _
    exact ⟨[], [], rfl, prefix_nil.mp htext⟩
  | cons name names ih =>
    intro text htext hlast
    rw [folderText_cons] at htext
    rcases prefix_or_prefix_of_prefix htext (prefix_append _ _) with hshort | ⟨more, hmore⟩
    · rcases prefix_concat_iff.mp hshort with hall | hinside
      · exact ⟨[name], names, rfl, by rw [hall, folderText_cons]; simp [folderText]⟩
      · -- within the name there is no `/`
        rcases eq_nil_or_concat text with rfl | ⟨before, byte, rfl⟩
        · exact ⟨[], name :: names, rfl, rfl⟩
        · obtain rfl := hlast byte (by simp)
          exact absurd (hinside.subset (by simp)) (slash_not_mem name)
    · rw [← hmore, prefix_append_right_inj] at htext
      obtain ⟨k, t, rfl, rfl⟩ := ih htext fun byte hbyte => hlast byte (by
        rw [← hmore, getLast?_append, Option.mem_def.mp hbyte]
        rfl)
      exact ⟨name :: k, t, rfl, by rw [← hmore, folderText_cons]⟩

def render (names : List (List ℕ)) : List ℕ :=
  if names = [] then [slash] else names.flatMap (slash :: ·)

theorem trim_root : trim [slash] = [] := by decide

theorem spell_concat (path : List ℕ) (names : List PathName) (name : PathName) :
    spell path (names ++ [name]) = join (spell path names) name := by
  rw [spell, foldl_concat, spell]

theorem spell_append (path : List ℕ) (a b : List PathName) :
    spell path (a ++ b) = spell (spell path a) b := by
  rw [spell, foldl_append, spell, spell]

theorem spell_root : spell [slash] names = slash :: trim (spell [slash] names) := by
  induction names using List.reverseRecOn with
  | nil => rfl
  | append_singleton names name ih =>
    rw [spell_concat, trim_join, asFolder]
    split_ifs with hroot
    · rw [hroot] at ih
      rw [ih, join, if_pos rfl]
      rfl
    · rw [join, if_neg fun h => hroot (by rw [h, trim_root])]
      nth_rewrite 1 [ih]
      simp

theorem trim_spell_concat :
    trim (spell [slash] (names ++ [name])) = folderText names ++ name.bytes := by
  rw [spell_concat, trim_join, asFolder_spell, trim_root]
  rfl

theorem spell_eq_render : spell [slash] names = render (names.map PathName.bytes) := by
  induction names using List.reverseRecOn with
  | nil => rfl
  | append_singleton names name ih =>
    rw [spell_concat, ih]
    rcases names with _ | ⟨first, more⟩
    · simp [join, render]
    · have hlong : render ((first :: more).map PathName.bytes) ≠ [slash] := by
        intro h
        have hlength := congrArg List.length h
        have hpos := length_pos_iff.mpr (bytes_ne_nil first)
        rw [render, if_neg (by simp), map_cons, flatMap_cons, length_append,
          length_cons, length_singleton] at hlength
        omega
      rw [join, if_neg hlong, render, if_neg (by simp), render, if_neg (by simp)]
      simp

theorem deeper_folderText {names : List PathName} (hne : names ≠ []) :
    deeper (folderText names) = spell [slash] names := by
  obtain ⟨before, name, rfl⟩ := (eq_nil_or_concat' names).resolve_left hne
  rw [spell_root, trim_spell_concat, folderText_concat, deeper]
  refine congrArg _ ?_
  obtain ⟨start, byte, hbytes⟩ :=
    (eq_nil_or_concat' name.bytes).resolve_left (bytes_ne_nil name)
  have hbyte : byte ≠ slash := by
    rintro rfl
    exact slash_not_mem name (by rw [hbytes]; simp)
  rw [hbytes, ← append_assoc, reverse_concat, dropWhile_cons_of_pos (by simp),
    reverse_concat, dropWhile_cons_of_neg (by simpa using hbyte), ← reverse_concat,
    reverse_reverse]

theorem pathNames_join (path : List ℕ) (name : PathName) :
    pathNames (join path name) = pathNames path ++ [name.bytes] := by
  have hname : pathNames name.bytes = [name.bytes] := by
    rw [pathNames, splitOn_eq_singleton (slash_not_mem name)]
    simp [bytes_ne_nil name]
  rw [join]
  split_ifs with hroot
  · rw [hroot, show slash :: name.bytes = [] ++ slash :: name.bytes from rfl, pathNames,
      splitOn_append_cons_self, filter_append, ← pathNames, ← pathNames, hname]
    rfl
  · rw [pathNames, splitOn_append_cons_self, filter_append, ← pathNames, ← pathNames,
      hname]

theorem pathNames_spell : pathNames (spell [slash] names) = names.map PathName.bytes := by
  induction names using List.reverseRecOn with
  | nil => rfl
  | append_singleton names name ih => rw [spell_concat, pathNames_join, ih, map_append]; rfl

theorem spell_injective (h : spell [slash] a = spell [slash] b) : a = b := by
  have hnames := congrArg pathNames h
  rw [pathNames_spell, pathNames_spell] at hnames
  exact map_injective_iff.mpr PathName.bytes_injective hnames

theorem length_le_spell : ∀ path : List ℕ,
    path.length ≤ (spell path names).length := by
  induction names with
  | nil => exact fun _ => Nat.le_refl _
  | cons name names ih =>
    intro path
    refine Nat.le_trans ?_ (ih (join path name))
    rw [join]
    split_ifs with hroot
    · rw [hroot]
      simp
    · simp

/-! ## Lookups by names -/

theorem walk_bytes (h : ns.ValidBase) {names : List PathName} : ∀ {s : ℕ},
    ns.walk s (names.map PathName.bytes) = .ok (ns.resolve s names) := by
  induction names with
  | nil => exact fun {_} => rfl
  | cons name names ih =>
    intro s
    rw [map_cons, Namespace.walk, PathName.fromBytes_ok name.valid, Namespace.resolve.eq_def]
    dsimp only [bind, Except.bind]
    rw [Namespace.binding]
    rcases hvalue : ns.lookup s with _ | value
    · rw [if_neg fun hs => ?_]
      obtain ⟨value, hs, -⟩ := (mem_directories_iff_lookup h).mp hs
      rw [hvalue] at hs
      cases hs
    · by_cases hkind : value.kind = .directory
      · rw [if_pos ((mem_directories_iff_lookup h).mpr ⟨value, hvalue, hkind⟩)]
        dsimp only
        rw [if_pos hkind]
        rcases (ns.listing s).lookup name with _ | child
        · rfl
        · exact ih
      · dsimp only
        rw [if_neg hkind, if_neg fun hs => ?_]
        obtain ⟨value', hs, hkind'⟩ := (mem_directories_iff_lookup h).mp hs
        rw [hvalue] at hs
        exact hkind (Option.some.inj hs ▸ hkind')

theorem names_of_walk {texts : List (List ℕ)} : ∀ {s d : ℕ},
    ns.walk s texts = .ok (some d) → ∃ names : List PathName, texts = names.map PathName.bytes := by
  induction texts with
  | nil => exact fun _ => ⟨[], rfl⟩
  | cons text texts ih =>
    intro s d hwalk
    rw [Namespace.walk, bind_eq_ok] at hwalk
    obtain ⟨name, hname, hwalk⟩ := hwalk
    have hbytes : name.bytes = text := by
      unfold PathName.fromBytes at hname
      split at hname
      · exact congrArg PathName.bytes (Except.ok.inj hname).symm
      · cases hname
    split at hwalk
    · obtain ⟨names, rfl⟩ := ih hwalk
      exact ⟨name :: names, by rw [map_cons, hbytes]⟩
    · cases hwalk

theorem find_spell (h : ns.ValidBase) (names : List PathName) :
    find ns (spell [slash] names) = .ok ((ns.resolve ns.root names).bind fun serial =>
      (ns.lookup serial).map fun value => ⟨serial, value⟩) := by
  rw [find, pathNames_spell, walk_bytes h]
  rcases ns.resolve ns.root names with _ | serial
  · rfl
  · rfl

/-- **The entries below a directory** are the bindings its names resolve to. -/
theorem mem_entriesBelow (h : ns.ValidBase) {names : List PathName} :
    ∀ {d : ℕ}, d ∈ ns.directories →
      ((∃ entry, (names, entry) ∈ entriesBelow ns d) ↔
        names ≠ [] ∧ ∃ s, ns.resolve d names = some s) := by
  induction names with
  | nil =>
    intro d _
    refine ⟨?_, fun hne => absurd rfl hne.1⟩
    rintro ⟨entry, hentry⟩
    exact absurd rfl (ne_nil_of_mem_entriesBelow hentry)
  | cons name names ih =>
    intro d hd
    have hasc := h.names_ascending d hd
    rw [entriesBelow_eq h hd]
    constructor
    · rintro ⟨entry, hentry⟩
      obtain ⟨⟨bound, child⟩, hrow, hentry⟩ := mem_flatMap.mp hentry
      refine ⟨cons_ne_nil _ _, ?_⟩
      obtain ⟨rest, hfirst⟩ := head_of_mem_rowEntries hentry
      obtain ⟨rfl, rfl⟩ := List.cons.inj hfirst
      have hlookup := hasc.mem_iff_lookup.mp hrow
      simp only [resolve_cons]
      rcases names with _ | ⟨next, more⟩
      · exact ⟨child, hd, child, hlookup, rfl⟩
      · rw [rowEntries] at hentry
        split at hentry
        · cases hentry
        · next value hvalue =>
          rcases mem_cons.mp hentry with hsame | hentry
          · cases hsame
          · split_ifs at hentry with hkind
            · obtain ⟨⟨names', entry'⟩, he', hsame⟩ := mem_map.mp hentry
              obtain ⟨hnames, rfl⟩ := Prod.mk.inj hsame
              obtain rfl := cons_injective hnames
              have hchild := (mem_directories_iff_lookup h).mpr ⟨value, hvalue, hkind⟩
              obtain ⟨-, s, hs⟩ := (ih hchild).mp ⟨entry', he'⟩
              exact ⟨s, hd, child, hlookup, hs⟩
            · cases hentry
    · rintro ⟨-, s, hresolve⟩
      obtain ⟨-, child, hlookup, hresolve⟩ := resolve_cons.mp hresolve
      have hrow := hasc.mem_iff_lookup.mpr hlookup
      obtain ⟨value, hvalue⟩ := lookup_of_mem_listing h hd hrow
      dsimp only at hvalue
      rcases names with _ | ⟨next, more⟩
      · refine ⟨⟨child, value⟩, mem_flatMap.mpr ⟨_, hrow, ?_⟩⟩
        rw [rowEntries, hvalue]
        exact mem_cons_self
      · have hchild := (resolve_cons.mp hresolve).1
        obtain ⟨entry, hentry⟩ := (ih hchild).mpr ⟨cons_ne_nil _ _, s, hresolve⟩
        refine ⟨entry, mem_flatMap.mpr ⟨_, hrow, ?_⟩⟩
        obtain ⟨value', hvalue', hkind⟩ := (mem_directories_iff_lookup h).mp hchild
        rw [rowEntries, hvalue']
        refine mem_cons_of_mem _ ?_
        rw [if_pos hkind]
        exact mem_map_of_mem hentry

/-! ## Where the walks start -/

theorem getLast_leading (h : leading pattern = some folders) : folders.getLast? = some slash := by
  rw [leading] at h
  split_ifs at h
  dsimp only at h
  split_ifs at h with hslash
  obtain rfl := Option.some.inj h
  generalize (withoutFirst slash (bodyOf pattern)).takeWhile (!isWildcard ·) = literal at hslash ⊢
  have hmem : slash ∈ literal.reverse := mem_reverse.mpr (contains_iff_mem.mp hslash)
  rw [throughSlash, getLast?_reverse]
  rcases hhead : (literal.reverse.dropWhile (· != slash)).head? with _ | byte
  · have hall := takeWhile_append_dropWhile (p := fun b => b != slash) (l := literal.reverse)
    rw [head?_eq_none_iff.mp hhead, append_nil] at hall
    rw [← hall] at hmem
    simpa using all_eq_true.mp all_takeWhile slash hmem
  · have hstop := head?_dropWhile_not (· != slash) literal.reverse
    rw [hhead] at hstop
    simpa using hstop

/-- **A match lies in the leading folders**, which are then names on its way. -/
theorem folders_of_match (hfolders : leading pattern = some folders) {names : List PathName}
    (hmatch : (parse pattern).matchesPath (spell [slash] names) = true) :
    ∃ k t, names = k ++ t ∧ k ≠ [] ∧ t ≠ [] ∧ folders = folderText k := by
  have hlast := getLast_leading hfolders
  have hinside := matchesPath_leading hfolders hmatch
  have hall : asFolder (trim (spell [slash] names)) = folderText names := by
    rw [asFolder_spell, trim_root]
    rfl
  obtain ⟨k, t, rfl, rfl⟩ := folders_of_begins (hall ▸ hinside.trans (prefix_asFolder _))
    fun byte hbyte => by rw [hlast] at hbyte; exact (Option.some.inj hbyte).symm
  refine ⟨k, t, rfl, ?_, ?_, rfl⟩
  · rintro rfl
    cases hlast
  · rintro rfl
    -- the folders and the `/` behind them are longer than the path
    rw [append_nil] at hall hinside
    rw [← hall, asFolder] at hinside hlast
    split_ifs at hinside hlast with hempty
    · cases hlast
    · have := hinside.length_le
      rw [length_append, length_singleton] at this
      omega

/-- What a walk shows from where `within` starts it. -/
def opened (ns : Namespace Id) (path : List ℕ) (entry : EntryFacts Id) (folders : Option (List ℕ)) :
    List (List ℕ × EntryFacts Id) :=
  if entry.value.kind = .directory then
    match folders with
    | none => shown ns none path entry.serial
    | some text =>
      match startWithin ns path entry text with
      | none => []
      | some frame => shown ns (some text) frame.path frame.entry.serial
  else [(path, entry)]

theorem row_of_find (h : ns.ValidBase) (hfind : find ns path = .ok (some entry)) :
    (entry.serial, entry.value) ∈ ns.inodes := by
  rw [find] at hfind
  split at hfind
  · cases hfind
  · cases hfind
  · obtain ⟨value, hvalue, rfl⟩ := Option.map_eq_some_iff.mp (Except.ok.inj hfind)
    exact h.mem_iff_lookup.mpr hvalue

theorem directory_of_find (h : ns.ValidBase) (hfind : find ns path = .ok (some entry))
    (hkind : entry.value.kind = .directory) : entry.serial ∈ ns.directories :=
  Namespace.mem_directories.mpr ⟨_, row_of_find h hfind, hkind⟩

theorem startWithin_cases {frame : Frame Id} (h : startWithin ns path entry folders = some frame) :
    agrees folders path = true ∧
      (frame = { path, entry } ∧ (deeper folders).length ≤ path.length ∨
        ∃ inner, path.length < (deeper folders).length ∧
          find ns (deeper folders) = .ok (some inner) ∧ inner.value.kind = .directory ∧
          frame = { path := deeper folders, entry := inner }) := by
  rw [startWithin] at h
  split_ifs at h with hagrees hlength
  · refine ⟨hagrees, .inr ?_⟩
    split at h
    · next inner hinner =>
      split_ifs at h with hkind
      exact ⟨inner, hlength, hinner, hkind, (Option.some.inj h).symm⟩
    · cases h
  · exact ⟨hagrees, .inl ⟨(Option.some.inj h).symm, Nat.le_of_not_lt hlength⟩⟩

theorem collect_fresh {tree : Tree Id} {folders : Option (List ℕ)}
    (hrow : (entry.serial, entry.value) ∈ tree.ns.inodes) (hkind : entry.value.kind = .directory)
    (hfuel : (shown tree.ns folders path entry.serial).length < fuel) :
    collect tree fuel ⟨[{ path, entry }], none, folders⟩ =
      some (.ok (shown tree.ns folders path entry.serial)) := by
  have hd : entry.serial ∈ tree.ns.directories := Namespace.mem_directories.mpr ⟨_, hrow, hkind⟩
  have hahead : ahead tree folders [{ path, entry }] =
      shown tree.ns folders path entry.serial := by
    rw [ahead_fresh hd]
    exact append_nil _
  have hcollect := @collect_eq _ tree fuel ⟨[{ path, entry }], none, folders⟩ (by
    intro frame hframe
    obtain rfl := mem_singleton.mp hframe
    exact ⟨hrow, hkind, by simp⟩) (by simpa [hahead] using hfuel)
  rw [hcollect]
  simp [hahead]

/-- **A walk from an existing path ends**, with what it shows from where it starts. -/
theorem walkWithin_eq {snap : Snap Id} (hfind : find snap.tree.ns path = .ok (some entry))
    (folders : Option (List ℕ)) (hfuel : (opened snap.tree.ns path entry folders).length < fuel) :
    walkWithin fuel snap path folders = some (.ok (opened snap.tree.ns path entry folders)) := by
  rw [walkWithin, within, existing, hfind]
  rw [opened.eq_def] at hfuel ⊢
  dsimp only
  split_ifs at hfuel ⊢ with hkind
  · have hrow := row_of_find snap.tree.valid hfind
    rcases folders with _ | text
    · exact collect_fresh hrow hkind hfuel
    · dsimp only at hfuel ⊢
      rcases hstart : startWithin snap.tree.ns path entry text with _ | frame
      · rw [hstart] at hfuel
        exact @collect_eq _ snap.tree fuel ⟨[], none, some text⟩ (by simp) hfuel
      · rw [hstart] at hfuel
        obtain ⟨-, ⟨rfl, -⟩ | ⟨inner, -, hinner, hkind', rfl⟩⟩ := startWithin_cases hstart
        · exact collect_fresh hrow hkind hfuel
        · exact collect_fresh (row_of_find snap.tree.valid hinner) hkind' hfuel
  · exact @collect_eq _ snap.tree fuel ⟨[], some (path, entry), folders⟩ (by simp) hfuel

/-! ## The jump to the leading folders -/

theorem folderText_injective (h : folderText a = folderText b) : a = b := by
  have hnil : ∀ {l : List PathName}, folderText l = [] → l = [] := by
    intro l hl
    rcases l with _ | ⟨name, l⟩
    · rfl
    · rw [folderText_cons] at hl
      simp at hl
  by_cases ha : a = []
  · rw [ha] at h ⊢
    exact (hnil h.symm).symm
  · have hb : b ≠ [] := by
      rintro rfl
      exact ha (hnil h)
    exact spell_injective (by rw [← deeper_folderText ha, h, deeper_folderText hb])

theorem below_of_agrees {k : List PathName}
    (hagrees : agrees (folderText k) (spell [slash] p) = true)
    (hlength : (spell [slash] p).length < (spell [slash] k).length) : ∃ q, k = p ++ q := by
  have hends : ∀ {l : List PathName}, ∀ byte ∈ (folderText l).getLast?, byte = slash := by
    intro l byte hbyte
    rcases eq_nil_or_concat' l with rfl | ⟨before, name, rfl⟩
    · cases hbyte
    · rw [folderText_concat, getLast?_concat] at hbyte
      exact (Option.some.inj hbyte).symm
  rw [agrees_iff, asFolder_spell, trim_root] at hagrees
  rcases hagrees with hpath | hfolders
  · obtain ⟨k', q, rfl, hsame⟩ := folders_of_begins hpath hends
    exact ⟨q, by rw [folderText_injective hsame]⟩
  · obtain ⟨k', q, rfl, hsame⟩ := folders_of_begins hfolders hends
    rw [← folderText_injective hsame, spell_append] at hlength
    have := length_le_spell q (spell [slash] k)
    omega

/-- **A match below a path above the leading folders lies below these.** -/
theorem below_of_match (hfolders : leading pattern = some folders) {r : List PathName}
    (hlength : (spell [slash] p).length < (deeper folders).length)
    (hmatch : (parse pattern).matchesPath (spell (spell [slash] p) r) = true) :
    ∃ q t, r = q ++ t ∧ t ≠ [] ∧ folders = folderText (p ++ q) ∧
      deeper folders = spell [slash] (p ++ q) := by
  rw [← spell_append] at hmatch
  obtain ⟨k, t, hnames, hk, ht, rfl⟩ := folders_of_match hfolders hmatch
  rw [deeper_folderText hk] at hlength ⊢
  rcases append_eq_append_iff.mp hnames with ⟨q, rfl, rfl⟩ | ⟨q, rfl, rfl⟩
  · exact ⟨q, t, rfl, ht, rfl, rfl⟩
  · rw [spell_append] at hlength
    have := length_le_spell q (spell [slash] k)
    omega

theorem find_of_match (h : ns.ValidBase) (hfolders : leading pattern = some folders)
    (hp : ns.resolve ns.root p = some s) (hs : s ∈ ns.directories)
    (hlength : (spell [slash] p).length < (deeper folders).length)
    (hsome : matched pattern (shown ns none (spell [slash] p) s) ≠ []) :
    ∃ q inner, folders = folderText (p ++ q) ∧ deeper folders = spell [slash] (p ++ q) ∧
      find ns (deeper folders) = .ok (some inner) ∧ inner.value.kind = .directory := by
  obtain ⟨path, hpath⟩ := exists_mem_of_ne_nil _ hsome
  rw [matched_shown] at hpath
  obtain ⟨⟨r, entry⟩, he, rfl⟩ := mem_map.mp hpath
  rw [mem_filter, Bool.and_eq_true] at he
  obtain ⟨q, t, rfl, ht, hq, hdeeper⟩ := below_of_match hfolders hlength he.2.1
  obtain ⟨-, last, hlast⟩ := (mem_entriesBelow h hs).mp ⟨entry, he.1⟩
  rw [Namespace.resolve_append] at hlast
  obtain ⟨d, hd, hlast⟩ := Option.bind_eq_some_iff.mp hlast
  -- names lead on from the folders, so they are a directory
  obtain ⟨name, t, rfl⟩ := exists_cons_of_ne_nil ht
  obtain ⟨value, hvalue, hkind⟩ := (mem_directories_iff_lookup h).mp (resolve_cons.mp hlast).1
  refine ⟨q, ⟨d, value⟩, hq, hdeeper, ?_, hkind⟩
  rw [hdeeper, find_spell h, Namespace.resolve_append, hp]
  dsimp only [Option.bind_some]
  rw [hd]
  dsimp only [Option.bind_some]
  rw [hvalue]
  rfl

/-- **The jump shows the matches of the path it starts above.** -/
theorem matched_shown_jump (h : ns.ValidBase) (hfolders : leading pattern = some folders)
    {q : List PathName} (hq : ns.resolve s q = some d) (hd : d ∈ ns.directories)
    (hsame : folders = folderText (p ++ q))
    (hlength : (spell [slash] p).length < (deeper folders).length) :
    matched pattern (shown ns none (spell [slash] p) s) =
      matched pattern (shown ns none (spell [slash] (p ++ q)) d) := by
  rw [matched_shown, matched_shown]
  simp only [admitted_none, Bool.and_true]
  have hkeep : ∀ r, (parse pattern).matchesPath (spell (spell [slash] p) r) = true →
      ∃ t, t ≠ [] ∧ r = q ++ t := by
    intro r hr
    obtain ⟨q', t, rfl, ht, hq', -⟩ := below_of_match hfolders hlength hr
    have heq := folderText_injective (hsame.symm.trans hq')
    exact ⟨t, ht, by rw [append_cancel_left heq]⟩
  rw [@entriesBelow_jump _ ns h d hd q s
    (fun r => (parse pattern).matchesPath (spell (spell [slash] p) r)) hq hkeep, map_map]
  simp only [Function.comp_def, ← spell_append, append_assoc]

/-! ## The matches of the pruned walk -/

/-- `Misspelt` from the entry a walk starts at. -/
def MisspeltAt (ns : Namespace Id) (start : EntryFacts Id) (folders path pattern : List ℕ) : Prop :=
  start.value.kind = .directory ∧ agrees folders path = true ∧
    path.length < (deeper folders).length ∧
    render (pathNames (deeper folders)) ≠ deeper folders ∧
    ∃ inner names, find ns (deeper folders) = .ok (some inner) ∧
      inner.value.kind = .directory ∧ names ≠ [] ∧
      (ns.resolve inner.serial names).isSome = true ∧
      (parse pattern).matchesPath (spell (deeper folders) names) = true

/-- **Misspelt leading folders**: a walk from above them jumps to folders with an empty name, which
lead to a directory all the same, and the pattern matches a path below under their spelling. -/
def Misspelt (ns : Namespace Id) (path pattern : List ℕ) : Prop :=
  ∃ folders start, leading pattern = some folders ∧ find ns path = .ok (some start) ∧
    MisspeltAt ns start folders path pattern

theorem matched_shown_eq_nil (h : ns.ValidBase) (hd : d ∈ ns.directories) :
    matched pattern (shown ns none path d) = [] ↔
      ∀ names, names ≠ [] → (ns.resolve d names).isSome = true →
        (parse pattern).matchesPath (spell path names) = false := by
  rw [matched_shown, map_eq_nil_iff, filter_eq_nil_iff]
  simp only [admitted_none, Bool.and_true, Bool.not_eq_true]
  constructor
  · intro hnone names hne hresolve
    obtain ⟨s, hs⟩ := Option.isSome_iff_exists.mp hresolve
    obtain ⟨entry, hentry⟩ := (mem_entriesBelow h hd).mpr ⟨hne, s, hs⟩
    exact hnone _ hentry
  · intro hnone e he
    obtain ⟨hne, s, hs⟩ := (mem_entriesBelow h hd).mp ⟨e.2, he⟩
    exact hnone e.1 hne (by rw [hs]; rfl)

theorem matched_jump_iff (h : ns.ValidBase) (hfolders : leading pattern = some folders)
    (hp : ns.resolve ns.root p = some s) (hs : s ∈ ns.directories)
    (hagrees : agrees folders (spell [slash] p) = true)
    (hlength : (spell [slash] p).length < (deeper folders).length) {inner : EntryFacts Id}
    (hinner : find ns (deeper folders) = .ok (some inner)) (hkind : inner.value.kind = .directory) :
    matched pattern (shown ns none (deeper folders) inner.serial) =
        matched pattern (shown ns none (spell [slash] p) s) ↔
      (render (pathNames (deeper folders)) ≠ deeper folders →
        matched pattern (shown ns none (deeper folders) inner.serial) = []) := by
  have hd := directory_of_find h hinner hkind
  obtain ⟨k, hk⟩ : ∃ k : List PathName, pathNames (deeper folders) = k.map PathName.bytes := by
    rw [find] at hinner
    split at hinner
    · cases hinner
    · cases hinner
    · next hwalk => exact names_of_walk hwalk
  by_cases hspelt : render (pathNames (deeper folders)) = deeper folders
  · refine ⟨fun _ hne => absurd hspelt hne, fun _ => ?_⟩
    have hdeeper : deeper folders = spell [slash] k := by rw [← hspelt, hk, spell_eq_render]
    have hresolve : ns.resolve ns.root k = some inner.serial := by
      rw [hdeeper, find_spell h] at hinner
      obtain ⟨serial, hserial, hentry⟩ := Option.bind_eq_some_iff.mp (Except.ok.inj hinner)
      obtain ⟨value, -, rfl⟩ := Option.map_eq_some_iff.mp hentry
      exact hserial
    by_cases hsame : folders = folderText k
    · obtain ⟨q, rfl⟩ := below_of_agrees (hsame ▸ hagrees) (hdeeper ▸ hlength)
      rw [Namespace.resolve_append, hp] at hresolve
      rw [matched_shown_jump h hfolders hresolve hd hsame hlength, hdeeper]
    · -- a match on either side begins with the folders, which are then the names themselves
      have hleft : matched pattern (shown ns none (deeper folders) inner.serial) = [] := by
        rw [matched_shown_eq_nil h hd]
        intro names _ _
        rw [← Bool.not_eq_true, hdeeper, ← spell_append]
        intro hmatch
        obtain ⟨k', -, -, hne, -, rfl⟩ := folders_of_match hfolders hmatch
        rw [deeper_folderText hne] at hdeeper
        exact hsame (by rw [spell_injective hdeeper])
      have hright : matched pattern (shown ns none (spell [slash] p) s) = [] := by
        by_contra hsome
        obtain ⟨q, -, hq, hdeeper', -⟩ := find_of_match h hfolders hp hs hlength hsome
        rw [hdeeper] at hdeeper'
        exact hsame (by rw [hq, ← spell_injective hdeeper'])
      rw [hleft, hright]
  · have hright : matched pattern (shown ns none (spell [slash] p) s) = [] := by
      by_contra hsome
      obtain ⟨q, -, -, hdeeper', -⟩ := find_of_match h hfolders hp hs hlength hsome
      refine hspelt ?_
      rw [hdeeper', pathNames_spell, ← spell_eq_render]
    rw [hright]
    exact ⟨fun hnone _ => hnone, fun hnone => hnone hspelt⟩

/-- Where a walk starts nowhere, the leading folders are no directory below its path, and nothing
below it matches. -/
theorem not_misspelt_of_startWithin (h : ns.ValidBase) (hfolders : leading pattern = some folders)
    (hp : ns.resolve ns.root p = some entry.serial) (hs : entry.serial ∈ ns.directories)
    (hframe : startWithin ns (spell [slash] p) entry folders = none) :
    ¬ MisspeltAt ns entry folders (spell [slash] p) pattern ∧
      matched pattern (shown ns none (spell [slash] p) entry.serial) = [] := by
  rw [startWithin] at hframe
  split_ifs at hframe with hagrees hlength
  · have hmissing : ∀ inner, find ns (deeper folders) = .ok (some inner) →
        inner.value.kind ≠ .directory := by
      intro inner hinner hkind
      rw [hinner] at hframe
      dsimp only at hframe
      rw [if_pos hkind] at hframe
      cases hframe
    refine ⟨?_, ?_⟩
    · rintro ⟨-, -, -, -, inner, -, hinner, hkind, -⟩
      exact hmissing inner hinner hkind
    · by_contra hsome
      obtain ⟨-, inner, -, -, hinner, hkind⟩ := find_of_match h hfolders hp hs hlength hsome
      exact hmissing inner hinner hkind
  · refine ⟨fun hm => hagrees hm.2.1, ?_⟩
    exact matched_shown_of_not_agrees hfolders (Bool.not_eq_true _ ▸ hagrees)

/-- **What the two walks show**, from an existing path. -/
theorem matched_opened_iff (h : ns.ValidBase)
    (hstart : find ns (spell [slash] p) = .ok (some entry)) (pattern : List ℕ) :
    matched pattern (opened ns (spell [slash] p) entry (leading pattern)) =
        matched pattern (opened ns (spell [slash] p) entry none) ↔
      ¬Misspelt ns (spell [slash] p) pattern := by
  have hmiss : ∀ {folders : List ℕ}, leading pattern = some folders →
      Misspelt ns (spell [slash] p) pattern →
        MisspeltAt ns entry folders (spell [slash] p) pattern := by
    rintro folders hfolders ⟨folders', start, hfolders', hfind, hat⟩
    obtain rfl := Option.some.inj (hfolders.symm.trans hfolders')
    obtain rfl := Option.some.inj (Except.ok.inj (hstart.symm.trans hfind))
    exact hat
  rcases hfolders : leading pattern with _ | folders
  · refine ⟨fun _ => ?_, fun _ => rfl⟩
    rintro ⟨folders, -, hsome, -⟩
    rw [hfolders] at hsome
    cases hsome
  · specialize hmiss hfolders
    by_cases hkind : entry.value.kind = .directory
    · have hs := directory_of_find h hstart hkind
      have hp : ns.resolve ns.root p = some entry.serial := by
        rw [find_spell h] at hstart
        obtain ⟨serial, hserial, hentry⟩ := Option.bind_eq_some_iff.mp (Except.ok.inj hstart)
        obtain ⟨value, -, rfl⟩ := Option.map_eq_some_iff.mp hentry
        exact hserial
      rw [opened.eq_def, opened.eq_def, if_pos hkind, if_pos hkind]
      dsimp only
      rcases hframe : startWithin ns (spell [slash] p) entry folders with _ | frame
      · -- a walk that starts nowhere misses no match
        obtain ⟨hnone, hfull⟩ := not_misspelt_of_startWithin h hfolders hp hs hframe
        exact ⟨fun _ hm => hnone (hmiss hm), fun _ => hfull.symm⟩
      · obtain ⟨hagrees, ⟨rfl, hshort⟩ | ⟨inner, hlength, hinner, hkind', rfl⟩⟩ :=
          startWithin_cases hframe
        · refine ⟨fun _ hm => ?_, fun _ => matched_shown_leading hfolders⟩
          have := (hmiss hm).2.2.1
          omega
        · dsimp only
          rw [matched_shown_leading hfolders,
            matched_jump_iff h hfolders hp hs hagrees hlength hinner hkind',
            matched_shown_eq_nil h (directory_of_find h hinner hkind')]
          constructor
          · intro hnone hm
            obtain ⟨-, -, -, hspelt, inner', names, hinner', -, hne, hresolve, hmatch⟩ := hmiss hm
            obtain rfl := Option.some.inj (Except.ok.inj (hinner.symm.trans hinner'))
            rw [hnone hspelt names hne hresolve] at hmatch
            cases hmatch
          · intro hnone hspelt names hne hresolve
            rw [← Bool.not_eq_true]
            intro hmatch
            exact hnone ⟨folders, entry, hfolders, hstart, hkind, hagrees, hlength, hspelt, inner,
              names, hinner, hkind', hne, hresolve, hmatch⟩
    · refine ⟨fun _ hm => hkind (hmiss hm).1, fun _ => ?_⟩
      rw [opened.eq_def, opened.eq_def, if_neg hkind, if_neg hkind]

/-- **The pruned walk shows exactly the full walk's matches**, in the same order, unless the leading
folders are misspelt; both walks end. -/
theorem pruned_exact_iff (snap : Snap Id) {start : List PathName} {entry : EntryFacts Id}
    (hstart : find snap.tree.ns (spell [slash] start) = .ok (some entry)) (pattern : List ℕ) :
    ∃ enough, ∀ fuel, enough ≤ fuel → ∃ pruned full,
      walkWithin fuel snap (spell [slash] start) (leading pattern) = some (.ok pruned) ∧
      walkWithin fuel snap (spell [slash] start) none = some (.ok full) ∧
      (matched pattern pruned = matched pattern full ↔
        ¬Misspelt snap.tree.ns (spell [slash] start) pattern) := by
  refine ⟨(opened snap.tree.ns (spell [slash] start) entry (leading pattern)).length +
    (opened snap.tree.ns (spell [slash] start) entry none).length + 1, fun fuel hfuel =>
    ⟨_, _, walkWithin_eq hstart _ ?_, walkWithin_eq hstart _ ?_, ?_⟩⟩
  · omega
  · omega
  · exact matched_opened_iff snap.tree.valid hstart pattern

/-- A snapshot of `/a/b/c`, all of them directories. -/
def nestedRows : Namespace ℕ where
  root := 1
  inodes := [(1, ⟨.directory, 0, 1, .root 0⟩), (2, ⟨.directory, 1, 2, .root 0⟩),
    (3, ⟨.directory, 1, 3, .root 0⟩), (4, ⟨.directory, 1, 4, .root 0⟩)]
  listing
    | 1 => [(letter 0, 2)]
    | 2 => [(letter 1, 3)]
    | 3 => [(letter 2, 4)]
    | _ => []

theorem nestedRows_valid : nestedRows.ValidBase := by
  have h12 : nestedRows.Edge 1 2 := ⟨by decide, by decide⟩
  have h23 : nestedRows.Edge 2 3 := ⟨by decide, by decide⟩
  have h34 : nestedRows.Edge 3 4 := ⟨by decide, by decide⟩
  have hreach : ∀ s ∈ nestedRows.serials, nestedRows.Reached s := by
    intro s hs
    have hall : ∀ s ∈ nestedRows.serials, s = 1 ∨ s = 2 ∨ s = 3 ∨ s = 4 := by decide
    obtain rfl | rfl | rfl | rfl := hall s hs
    · exact .refl
    · exact .single h12
    · exact (Relation.ReflTransGen.single h12).tail h23
    · exact ((Relation.ReflTransGen.single h12).tail h23).tail h34
  exact Namespace.validBase_of_reached (by decide) (by decide) (by decide) (by decide) (by decide)
    (by decide) (by decide) hreach (by decide) (by decide)

theorem nestedRows_roots : ∀ row ∈ nestedRows.inodes, row.2.contentRoot = row.1 := by decide

@[inherit_doc nestedRows]
def nested : Snap ℕ where
  label := []
  tree :=
    { ns := nestedRows
      pages := fun id => .leaf (nestedRows.listing id)
      valid := nestedRows_valid
      checked := by
        intro d value hrow _
        have hall : ∀ row ∈ nestedRows.inodes,
            checkedDirectory true none none (.leaf (nestedRows.listing row.1)) = .ok () := by decide
        rw [nestedRows_roots _ hrow]
        exact Page.allChecked_leaf.mpr (hall _ hrow)
      holds := by
        intro d value hrow _
        rw [nestedRows_roots _ hrow]
        rfl }

/-- The pattern `a//b/*`. -/
def doubled : List ℕ := [0x61, 0x2F, 0x2F, 0x62, 0x2F, 0x2A]

/-- **A match that is no path**: below `/` the pattern's own walk shows `/a//b/c`, the full walk
nothing. -/
theorem doubled_invents_match :
    ((walkWithin 10 nested [slash] (leading doubled)).map fun r => r.toOption.map (matched doubled)) =
        some (some [[0x2F, 0x61, 0x2F, 0x2F, 0x62, 0x2F, 0x63]]) ∧
      ((walkWithin 10 nested [slash] none).map fun r => r.toOption.map (matched doubled)) =
        some (some []) := by
  constructor
  · decide +kernel
  · decide +kernel

/-- Below `/a` the pattern `a/b/*` matches `/a/b/c` in both walks. -/
theorem pruned_exact_iff_nested :
    ∃ enough, ∀ fuel, enough ≤ fuel → ∃ pruned full,
      walkWithin fuel nested [0x2F, 0x61] (leading [0x61, 0x2F, 0x62, 0x2F, 0x2A]) =
        some (.ok pruned) ∧
      walkWithin fuel nested [0x2F, 0x61] none = some (.ok full) ∧
      (matched [0x61, 0x2F, 0x62, 0x2F, 0x2A] pruned =
          matched [0x61, 0x2F, 0x62, 0x2F, 0x2A] full ↔
        ¬Misspelt nested.tree.ns [0x2F, 0x61] [0x61, 0x2F, 0x62, 0x2F, 0x2A]) :=
  @pruned_exact_iff _ nested [⟨[0x61], rfl⟩] ⟨2, ⟨.directory, 1, 2, .root 0⟩⟩ rfl
    [0x61, 0x2F, 0x62, 0x2F, 0x2A]

end LayerFs.Glob
