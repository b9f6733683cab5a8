import Ripple.Dict
import Ripple.FileTree.Edit

/-!
# What Is Written Is Read

A file is written at the place that a path means, and read by following the
path again. That both end at the same place is not a matter of course: a path
may lead through a directory and back out of it with two dots, and such a
detour is only possible while the directory is there.

So the question is what an edit does to the directories of a tree. It changes
a node that is no directory, so it takes none away: `HasDirectory` is kept at
all names, whatever happens to files. Two trees with this relation are
followed alike, as long as a path leads to a directory, and a path to a file
does so up to its last segment. Nothing is needed of the trees: their entries
may stand in any order and even share a name, since the first one counts for
the edit and for the look.

## Theorems

* `FileTree.node_alter_self`: What is found at the place of a change.
* `FileTree.trace_of_hasDirectory`: A way to a directory can be followed in
  every tree that still has the directories.
-/

namespace Ripple.FileTree

open List

section Names

variable {top node : FileTree} {names : List String} {change : Option FileTree → Option FileTree}

/-- There is a directory at the end of some names. -/
def HasDirectory (top : FileTree) (names : List String) : Prop :=
  ∃ entries, top.node? names = some (directory entries)

theorem node_directory_cons (entries : List (String × FileTree)) (name : String)
    (rest : List String) : (directory entries).node? (name :: rest) =
      (entries.find? fun e => e.1 = name).bind fun e => e.2.node? rest := by
  rw [node?]
  cases entries.find? fun e => e.1 = name with
  | none => rfl
  | some e => rfl

theorem node_append (top : FileTree) (names rest : List String) :
    top.node? (names ++ rest) = (top.node? names).bind fun node => node.node? rest := by
  induction names generalizing top with
  | nil => rfl
  | cons name names ih =>
    cases top with
    | file content modified => rfl
    | directory entries =>
      rw [cons_append, node_directory_cons, node_directory_cons, Option.bind_assoc]
      exact Option.bind_congr fun e _ => ih e.2

theorem HasDirectory.of_append {rest : List String} (h : top.HasDirectory (names ++ rest)) :
    top.HasDirectory names := by
  obtain ⟨entries, hents⟩ := h
  rw [node_append] at hents
  obtain ⟨node, hnode, hrest⟩ := Option.bind_eq_some_iff.mp hents
  cases node with
  | directory below => exact ⟨below, hnode⟩
  | file content modified =>
    cases rest with
    | nil => cases hrest
    | cons name rest => cases hrest

theorem hasDirectory_cons_iff {entries : List (String × FileTree)} {name : String}
    {rest : List String} : (directory entries).HasDirectory (name :: rest) ↔
      ∃ e, (entries.find? fun e => e.1 = name) = some e ∧ e.2.HasDirectory rest := by
  simp only [HasDirectory, node_directory_cons, Option.bind_eq_some_iff]
  constructor
  · rintro ⟨below, e, he, hbelow⟩
    exact ⟨e, he, below, hbelow⟩
  · rintro ⟨e, he, below, hbelow⟩
    exact ⟨below, e, he, hbelow⟩

theorem find_eq_lookup (name : String) (entries : List (String × FileTree)) :
    (entries.find? fun e => e.1 = name) = (Dict.lookup name entries).map (Prod.mk name) := by
  induction entries with
  | nil => rfl
  | cons e rest ih =>
    rw [find?_cons, Dict.lookup]
    by_cases he : e.1 = name
    · rw [decide_eq_true he, if_pos (Std.LawfulEqOrd.compare_eq_iff_eq.mpr he.symm), ← he]
      rfl
    · rw [decide_eq_false he,
        if_neg fun hname => he (Std.LawfulEqOrd.compare_eq_iff_eq.mp hname).symm]
      exact ih

theorem setEntry_eq_insertEntry (name : String) (node : FileTree)
    (entries : List (String × FileTree)) :
    setEntry name node entries = Dict.insertEntry name node entries := by
  induction entries with
  | nil => rfl
  | cons e rest ih =>
    cases hcmp : compare name e.1 with
    | lt | eq | gt => simp only [setEntry, Dict.insertEntry, hcmp, ih]

theorem find_setEntry (name other : String) (node : FileTree) (entries : List (String × FileTree)) :
    ((setEntry name node entries).find? fun e => e.1 = other) =
      if other = name then some (name, node) else entries.find? fun e => e.1 = other := by
  rw [find_eq_lookup, find_eq_lookup, setEntry_eq_insertEntry, Dict.lookup_insertEntry]
  split
  next h => rw [h, Option.map_some]
  · rfl

/-- Other entries are as they were. -/
theorem find_alterEntry_of_ne {name other : String} (h : other ≠ name)
    (entries : List (String × FileTree)) :
    ((alterEntry change name entries).find? fun e => e.1 = other) =
      entries.find? fun e => e.1 = other := by
  unfold alterEntry
  split
  next node _ => rw [find_setEntry, if_neg h]
  next =>
    -- Whoever has the name that is looked for does not have the one that is removed.
    rw [find?_filter]
    congr
    funext e
    by_cases he : e.1 = other
    · simp only [he, decide_true, decide_eq_true_eq, and_true]
      exact h
    · simp only [decide_eq_false he, Bool.false_eq_true, and_false, decide_false]

theorem alter_cons {name : String} (h : names ≠ []) (entries : List (String × FileTree)) :
    (directory entries).alter change (name :: names) = directory (entries.map fun e =>
      if e.1 = name then (e.1, e.2.alter change names) else e) := by
  cases names with
  | nil => exact absurd rfl h
  | cons next rest => rw [alter]

/-- A change below an entry leaves the names of entries alone. -/
theorem find_map_alter (name other : String) (entries : List (String × FileTree)) :
    ((entries.map fun e => if e.1 = name then (e.1, e.2.alter change names) else e).find?
      fun e => e.1 = other) = (entries.find? fun e => e.1 = other).map fun e =>
        if e.1 = name then (e.1, e.2.alter change names) else e := by
  rw [find?_map]
  congr
  funext e
  by_cases he : e.1 = name
  · simp only [Function.comp_apply, if_pos he]
  · simp only [Function.comp_apply, if_neg he]

/-- What is seen of a node without what is below it: the content and time of a file. -/
def face : FileTree → Option (ByteArray × Int64)
  | file content modified => some (content, modified)
  | directory _ => none

theorem hasDirectory_iff_face :
    top.HasDirectory names ↔ (top.node? names).map face = some none := by
  rw [Option.map_eq_some_iff]
  constructor
  · rintro ⟨entries, hnode⟩
    exact ⟨_, hnode, rfl⟩
  · rintro ⟨node, hnode, hface⟩
    cases node with
    | file content modified => cases hface
    | directory entries => exact ⟨entries, hnode⟩

/-- A change is not seen elsewhere, except perhaps below the place where it is made. -/
theorem face_alter {names other : List String} (h : ¬ names <+: other) :
    ((top.alter change names).node? other).map face = (top.node? other).map face := by
  -- The names of the change and those that are looked for are followed side by side.
  induction names generalizing top other with
  | nil => exact absurd nil_prefix h
  | cons name rest ih =>
    cases top with
    | file content modified => rw [alter]
    | directory entries =>
      cases other with
      | nil =>
        cases rest with
        | nil => rfl
        | cons next rest => rfl
      | cons first other =>
        cases rest with
        | nil =>
          have hne : first ≠ name := by
            rintro rfl
            exact h (List.cons_prefix_cons.mpr ⟨rfl, nil_prefix⟩)
          rw [alter, node_directory_cons, node_directory_cons, find_alterEntry_of_ne hne]
        | cons next rest =>
          rw [alter_cons (cons_ne_nil next rest), node_directory_cons,
            node_directory_cons, find_map_alter]
          cases hfind : entries.find? fun e => e.1 = first with
          | none => rfl
          | some e =>
            have hfst : e.1 = first := by simpa using find?_some hfind
            rw [Option.map_some, Option.bind_some, Option.bind_some]
            by_cases hname : e.1 = name
            · rw [if_pos hname]
              refine ih fun hpre => h ?_
              exact List.cons_prefix_cons.mpr ⟨hname.symm.trans hfst, hpre⟩
            · rw [if_neg hname]

theorem find_alterEntry (name : String) (entries : List (String × FileTree)) :
    ((alterEntry change name entries).find? fun e => e.1 = name).map Prod.snd =
      change ((entries.find? fun e => e.1 = name).map Prod.snd) := by
  unfold alterEntry
  split
  next node hnode => rw [find_setEntry, if_pos rfl, hnode, Option.map_some]
  next hnone =>
    have hgone : ((entries.filter fun e => e.1 ≠ name).find? fun e => e.1 = name) = none := by
      refine List.find?_eq_none.mpr fun e he => ?_
      have hne : e.1 ≠ name := by simpa using (mem_filter.mp he).2
      simpa using hne
    rw [hgone, hnone, Option.map_none]

theorem node_alter_self (h : top.HasDirectory names) (name : String) :
    (top.alter change (names ++ [name])).node? (names ++ [name]) =
      change (top.node? (names ++ [name])) := by
  have hbind : ∀ found : Option (String × FileTree),
      (found.bind fun e => e.2.node? []) = found.map Prod.snd := fun found => by
    cases found with
    | none => rfl
    | some e => rfl
  induction names generalizing top with
  | nil =>
    obtain ⟨entries, hents⟩ := h
    cases hents
    rw [nil_append, alter, node_directory_cons, node_directory_cons, hbind, hbind, find_alterEntry]
  | cons first rest ih =>
    obtain ⟨below, hbelow⟩ := h
    cases top with
    | file content modified => cases hbelow
    | directory entries =>
      obtain ⟨e, he, hrest⟩ := hasDirectory_cons_iff.mp ⟨below, hbelow⟩
      have hfst : e.1 = first := by simpa using find?_some he
      rw [cons_append, alter_cons (by simp), node_directory_cons, node_directory_cons,
        find_map_alter, he, Option.map_some, if_pos hfst]
      exact ih hrest

/-- A change takes no directory away, except where it is made and below. -/
theorem hasDirectory_alter {names other : List String} (h : ¬ names <+: other)
    (hdir : top.HasDirectory other) : (top.alter change names).HasDirectory other := by
  rw [hasDirectory_iff_face] at hdir ⊢
  rw [face_alter h, hdir]

end Names

section Ways

variable {top after : FileTree} {way last : Way} {segments : List String}

/-- A way through the nodes of a tree: each one is an entry of the one before. -/
def Way.Leads (top : FileTree) : Way → Prop
  | [] => True
  | (name, node) :: way => Way.Leads top way ∧ (Way.node top way).node? [name] = some node

theorem Way.names_cons (name : String) (node : FileTree) (way : Way) :
    Way.names ((name, node) :: way) = way.names ++ [name] := by
  rw [Way.names, map_cons, reverse_cons, ← Way.names]

theorem Way.Leads.tail (h : way.Leads top) : Way.Leads top way.tail := by
  cases way with
  | nil => exact trivial
  | cons step way => exact h.1

theorem Way.Leads.node_names (h : way.Leads top) : top.node? way.names = some (way.node top) := by
  induction way with
  | nil => rfl
  | cons step way ih =>
    obtain ⟨hway, hstep⟩ := h
    rw [Way.names_cons, node_append, ih hway, Option.bind_some, hstep]
    rfl

theorem Way.Leads.hasDirectory_iff (h : way.Leads top) :
    top.HasDirectory way.names ↔ ∃ entries, way.node top = directory entries := by
  simp only [HasDirectory, h.node_names, Option.some.injEq]

theorem isDots_eq_false_iff {segment : String} :
    isDots segment = false ↔ ¬ (segment = "" ∨ segment = ".") ∧ segment ≠ ".." := by
  simp only [isDots, Bool.or_eq_false_iff, decide_eq_false_iff_not, not_or, ne_eq]

/-- How a segment is followed. -/
theorem trace_cons_eq_ok_iff {segment : String} {rest : List String} :
    trace top way (segment :: rest) = .ok last ↔ ∃ entries, way.node top = directory entries ∧
      ((segment = "" ∨ segment = ".") ∧ trace top way rest = .ok last ∨
        segment = ".." ∧ trace top way.tail rest = .ok last ∨
        isDots segment = false ∧ ∃ node, (directory entries).node? [segment] = some node ∧
          trace top ((segment, node) :: way) rest = .ok last) := by
  rw [trace]
  cases way.node top with
  | file content modified => simp
  | directory entries =>
    simp only [directory.injEq, exists_eq_left', isDots_eq_false_iff, Bool.or_eq_true,
      decide_eq_true_eq]
    by_cases hblank : segment = "" ∨ segment = "."
    · rw [if_pos hblank]
      constructor
      · exact fun h => Or.inl ⟨hblank, h⟩
      · rintro (⟨-, h⟩ | ⟨rfl, -⟩ | ⟨⟨hname, -⟩, -⟩)
        · exact h
        · exact absurd hblank (by decide)
        · exact absurd hblank hname
    · by_cases hdots : segment = ".."
      · rw [if_neg hblank, if_pos hdots]
        constructor
        · exact fun h => Or.inr (Or.inl ⟨hdots, h⟩)
        · rintro (⟨hempty, -⟩ | ⟨-, h⟩ | ⟨⟨-, hname⟩, -⟩)
          · exact absurd hempty hblank
          · exact h
          · exact absurd hdots hname
      · rw [if_neg hblank, if_neg hdots, and_iff_right (show _ ∧ _ from ⟨hblank, hdots⟩),
          or_iff_right (fun h => hblank h.1), or_iff_right (fun h => hdots h.1), entry?,
          node_directory_cons]
        cases entries.find? fun e => e.1 = segment with
        | none => simp
        | some e => simp only [Option.bind_some, node?, Option.some.injEq, exists_eq_left']

theorem trace_append (rest : List String) : trace top way (segments ++ rest) =
    (trace top way segments).bind fun middle => trace top middle rest := by
  induction segments generalizing way with
  | nil => rfl
  | cons segment segments ih =>
    rw [cons_append, trace, trace]
    split
    · rfl
    · split
      · exact ih
      · split
        · exact ih
        · split
          · exact ih
          · rfl

theorem isDirectory_of_trace (h : trace top way segments = .ok last)
    (hlast : ∃ entries, last.node top = directory entries) :
    ∃ entries, way.node top = directory entries := by
  cases segments with
  | nil =>
    cases h
    exact hlast
  | cons segment rest =>
    obtain ⟨entries, hents, -⟩ := trace_cons_eq_ok_iff.mp h
    exact ⟨entries, hents⟩

theorem leads_trace (hway : way.Leads top) (h : trace top way segments = .ok last) :
    last.Leads top := by
  induction segments generalizing way with
  | nil =>
    cases h
    exact hway
  | cons segment rest ih =>
    obtain ⟨entries, hents, ⟨-, hrest⟩ | ⟨-, hrest⟩ | ⟨-, node, hnode, hrest⟩⟩ :=
      trace_cons_eq_ok_iff.mp h
    · exact ih hway hrest
    · exact ih hway.tail hrest
    · have hstep : Way.Leads top ((segment, node) :: way) := ⟨hway, hents ▸ hnode⟩
      exact ih hstep hrest

theorem trace_of_hasDirectory (hkeeps : ∀ names, top.HasDirectory names → after.HasDirectory names)
    (hway : way.Leads top) {way' : Way} (hway' : way'.Leads after) (hnames : way'.names = way.names)
    (h : trace top way segments = .ok last)
    (hlast : ∃ entries, last.node top = directory entries) :
    ∃ last', trace after way' segments = .ok last' ∧ last'.names = last.names := by
  -- Both ways have the same names all along; their nodes may differ.
  induction segments generalizing way way' with
  | nil =>
    cases h
    exact ⟨way', rfl, hnames⟩
  | cons segment rest ih =>
    obtain ⟨entries', hents'⟩ : ∃ entries, way'.node after = directory entries := by
      rw [← hway'.hasDirectory_iff, hnames]
      exact hkeeps _ (hway.hasDirectory_iff.mpr (isDirectory_of_trace h hlast))
    obtain ⟨entries, hents, ⟨hblank, hrest⟩ | ⟨hdots, hrest⟩ | ⟨hname, node, hnode, hrest⟩⟩ :=
      trace_cons_eq_ok_iff.mp h
    · obtain ⟨last', hlast', hsame⟩ := ih hway hway' hnames hrest
      refine ⟨last', trace_cons_eq_ok_iff.mpr ⟨entries', hents', ?_⟩, hsame⟩
      exact Or.inl ⟨hblank, hlast'⟩
    · have htail : Way.names way'.tail = Way.names way.tail := by
        rw [Way.names, Way.names, map_tail, map_tail, reverse_inj.mp hnames]
      obtain ⟨last', hlast', hsame⟩ := ih hway.tail hway'.tail htail hrest
      exact ⟨last', trace_cons_eq_ok_iff.mpr
        ⟨entries', hents', Or.inr (Or.inl ⟨hdots, hlast'⟩)⟩, hsame⟩
    · have hstep : Way.Leads top ((segment, node) :: way) := ⟨hway, hents ▸ hnode⟩
      -- The next directory is still there, so it is an entry of this one.
      obtain ⟨node', hnode'⟩ : ∃ node', (directory entries').node? [segment] = some node' := by
        obtain ⟨below, hbelow⟩ := hkeeps _ (hstep.hasDirectory_iff.mpr
          (isDirectory_of_trace hrest hlast))
        rw [Way.names_cons, ← hnames, node_append, hway'.node_names, hents'] at hbelow
        exact ⟨_, hbelow⟩
      have hstep' : Way.Leads after ((segment, node') :: way') := ⟨hway', hents' ▸ hnode'⟩
      have hnext : Way.names ((segment, node') :: way') = Way.names ((segment, node) :: way) := by
        rw [Way.names_cons, Way.names_cons, hnames]
      obtain ⟨last', hlast', hsame⟩ := ih hstep hstep' hnext hrest
      exact ⟨last', trace_cons_eq_ok_iff.mpr ⟨entries', hents', Or.inr (Or.inr
        ⟨hname, node', hnode', hlast'⟩)⟩, hsame⟩

end Ways

section Files

theorem ok_of_bind {ε α β : Type} {x : Except ε α} {f : α → Except ε β} {b : β}
    (h : x >>= f = .ok b) : ∃ a, x = .ok a ∧ f a = .ok b := by
  cases x with
  | error e => cases h
  | ok a => exact ⟨a, rfl, h⟩

variable {top after : FileTree} {path : String} {p : Place}

/-- The last segment of a path to a file is the name of an entry of the directory that the other
    segments lead to, or a name that fits. -/
theorem place_eq_ok (h : top.place path = .ok p) : ∃ segments way,
    checked path = .ok (segments ++ [p.name]) ∧ trace top [] segments = .ok way ∧
      isDots p.name = false ∧ p.above = way.names ∧
      (∃ entries, way.node top = directory entries ∧ p.node = (directory entries).node? [p.name]) ∧
      (p.node = none → p.name.utf8ByteSize ≤ maxNameSize) := by
  obtain ⟨segments, hsegs, h⟩ := ok_of_bind h
  obtain ⟨way, hway, h⟩ := ok_of_bind h
  by_cases hdots : isDots (segments.getLastD "") = true
  · -- A path that ends with dots means a directory, so it is refused in any case.
    rw [if_pos hdots] at h
    obtain ⟨_, _, h⟩ := ok_of_bind h
    cases h
  · have hne : segments ≠ [] := by
      rintro rfl
      exact hdots rfl
    have hsplit : segments.dropLast ++ [segments.getLastD ""] = segments := by
      rw [getLastD_eq_getLast?, getLast?_eq_some_getLast hne]
      exact dropLast_concat_getLast hne
    rw [if_neg hdots] at h
    split at h
    · cases h
    next entries hents =>
      -- Whether there is an entry or not, the place says what is found.
      have hplace : p = ⟨way.names, segments.getLastD "",
          (directory entries).node? [segments.getLastD ""]⟩ ∧
          (p.node = none → (segments.getLastD "").utf8ByteSize ≤ maxNameSize) := by
        rw [node_directory_cons]
        unfold entry? at h
        cases hfind : entries.find? fun e => e.1 = segments.getLastD "" with
        | some e =>
          rw [hfind] at h
          cases h
          exact ⟨rfl, nofun⟩
        | none =>
          rw [hfind] at h
          by_cases hsize : (segments.getLastD "").utf8ByteSize > maxNameSize
          · simp only [if_pos hsize] at h
            cases h
          · simp only [if_neg hsize] at h
            cases h
            exact ⟨rfl, fun _ => Nat.not_lt.mp hsize⟩
      obtain ⟨rfl, hsize⟩ := hplace
      refine ⟨segments.dropLast, way, ?_, hway, Bool.eq_false_iff.mpr hdots, rfl,
        ⟨entries, hents, rfl⟩, hsize⟩
      rw [hsplit]
      exact hsegs

/-- A path to a directory and a name of one of its entries lead to the entry. -/
theorem at_of_trace {segments : List String} {way : Way} {name : String}
    {entries : List (String × FileTree)} {node : FileTree}
    (hpath : checked path = .ok (segments ++ [name])) (hway : trace top [] segments = .ok way)
    (hname : isDots name = false) (hdir : way.node top = directory entries)
    (hnode : (directory entries).node? [name] = some node) : top.at? path = .ok node := by
  have hlast : trace top way [name] = .ok ((name, node) :: way) :=
    trace_cons_eq_ok_iff.mpr ⟨entries, hdir, Or.inr (Or.inr ⟨hname, node, hnode, rfl⟩)⟩
  have hall : trace top [] (segments ++ [name]) = .ok ((name, node) :: way) := by
    rw [trace_append, hway]
    exact hlast
  rw [at?, hpath]
  simp only [bind, Except.bind, hall]
  rfl

theorem hasDirectory_of_place (h : top.place path = .ok p) : top.HasDirectory p.above := by
  obtain ⟨segments, way, -, hway, -, habove, ⟨entries, hents, -⟩, -⟩ := place_eq_ok h
  have hleads : way.Leads top := leads_trace (show Way.Leads top [] from trivial) hway
  rw [habove]
  exact hleads.hasDirectory_iff.mpr ⟨entries, hents⟩

theorem node_of_place (h : top.place path = .ok p) : top.node? p.names = p.node := by
  obtain ⟨segments, way, -, hway, -, habove, ⟨entries, hents, hnode⟩, -⟩ := place_eq_ok h
  have hleads : way.Leads top := leads_trace (show Way.Leads top [] from trivial) hway
  rw [Place.names, habove, node_append, hleads.node_names, hents, Option.bind_some, hnode]

/-- What is at the place of a path is found by following the path, also in another tree that still
    has the directories. -/
theorem at_of_place (h : top.place path = .ok p)
    (hkeeps : ∀ names, top.HasDirectory names → after.HasDirectory names) {node : FileTree}
    (hnode : after.node? p.names = some node) : after.at? path = .ok node := by
  obtain ⟨segments, way, hpath, hway, hname, habove, ⟨entries, hents, -⟩, -⟩ := place_eq_ok h
  -- All segments but the last lead to a directory, and the last one is an entry of it.
  have hstart : ∀ tree, Way.Leads tree [] := fun _ => trivial
  obtain ⟨way', hway', hnames⟩ := trace_of_hasDirectory hkeeps (hstart top) (hstart after) rfl hway
    ⟨entries, hents⟩
  have hleads : way'.Leads after := leads_trace (hstart after) hway'
  obtain ⟨entries', hents'⟩ : ∃ entries, way'.node after = directory entries := by
    rw [← hleads.hasDirectory_iff, hnames, ← habove]
    exact hkeeps _ (hasDirectory_of_place h)
  refine at_of_trace hpath hway' hname hents' ?_
  rw [Place.names, habove, ← hnames, node_append, hleads.node_names, hents'] at hnode
  exact hnode

theorem not_prefix_of_place (h : top.place path = .ok p)
    (hfile : ∀ entries, p.node ≠ some (directory entries)) {names : List String}
    (hnames : top.HasDirectory names) : ¬ p.names <+: names := by
  rintro ⟨rest, rfl⟩
  obtain ⟨entries, hents⟩ := hnames.of_append
  rw [node_of_place h] at hents
  exact hfile entries hents

/-- What is written to a path is found there. -/
theorem at_writeFile {content : ByteArray} {now : Int64}
    (h : top.writeFile path content now = .ok after) : after.at? path = .ok (file content now) := by
  obtain ⟨p, hplace, h⟩ := ok_of_bind h
  split at h
  · cases h
  next hfile =>
    cases h
    refine at_of_place hplace (fun names hnames => ?_)
      (node_alter_self (hasDirectory_of_place hplace) p.name)
    exact hasDirectory_alter (not_prefix_of_place hplace hfile hnames) hnames

/-- A move takes a file from its place and sets it at another one that is no directory. -/
theorem moveFile_eq_ok {source target : String} (h : top.moveFile source target = .ok after) :
    ∃ p q node, top.place source = .ok p ∧ top.place target = .ok q ∧ p.node = some node ∧
      (∀ entries, p.node ≠ some (directory entries)) ∧
      (∀ entries, q.node ≠ some (directory entries)) ∧
      after = (top.alter (fun _ => none) p.names).alter (fun _ => some node) q.names := by
  obtain ⟨p, hp, h⟩ := ok_of_bind h
  split at h
  · cases h
  · cases h
  next node hfile hnode =>
    have hnone : ∀ entries, p.node ≠ some (directory entries) := fun entries hdir =>
      hfile entries (Option.some.inj (hnode.symm.trans hdir))
    dsimp only at h
    split at h
    · cases h
    · split at h
      · cases h
      · obtain ⟨q, hq, h⟩ := ok_of_bind h
        split at h
        · cases h
        next hover =>
          cases h
          exact ⟨p, q, node, hp, hq, hnode, hnone, hover, rfl⟩

/-- What is moved to a path is found there. -/
theorem at_moveFile {source target : String} (h : top.moveFile source target = .ok after) :
    ∃ node, top.at? source = .ok node ∧ after.at? target = .ok node := by
  obtain ⟨p, q, node, hp, hq, hnode, hfile, hover, rfl⟩ := moveFile_eq_ok h
  -- No directory is lost when the file is taken away, nor when it is set.
  have htaken : ∀ names, top.HasDirectory names →
      (top.alter (fun _ => none) p.names).HasDirectory names :=
    fun names hnames => hasDirectory_alter (not_prefix_of_place hp hfile hnames) hnames
  refine ⟨node, at_of_place hp (fun _ => id) ((node_of_place hp).trans hnode), ?_⟩
  refine at_of_place hq (fun names hnames => ?_)
    (node_alter_self (htaken _ (hasDirectory_of_place hq)) q.name)
  exact hasDirectory_alter (not_prefix_of_place hq hover hnames) (htaken names hnames)

end Files

end Ripple.FileTree
