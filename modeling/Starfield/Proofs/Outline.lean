import Mathlib.Data.List.TakeWhile
import Starfield.Proofs.Shortage
import Starfield.Tree.Outline

/-!
# Reading outlines

An outline is a text for people, but nothing it says gets lost in it: this file
reads the lines back.  Each line gives the way to its node and the figures of the
node, and the lines together give the shape of the tree, since a line tells
whether the lines of eight children follow it.
-/

namespace Starfield

/-! ## What a line says -/

/-- What a line of an outline says about a node: the way to it, its number of
stars and, for an inner node, the size of its sample. -/
structure Headline where
  path : List Octant
  count : Nat
  sampled : Option Nat
deriving DecidableEq

def Entry.headline (entry : Entry) : Headline where
  path := entry.path
  count := entry.cell.count
  sampled := if entry.isLeaf then none else some entry.cell.stars.size

/-- The lines of a text.  What comes after the last line break is no line. -/
def textLines (text : String) : List (List Char) :=
  (text.toList.splitOn '\n').dropLast

def indentation (line : List Char) : Nat :=
  (line.takeWhile (· = ' ')).length

namespace Headline

/-- The first number in a text, if there is one, and what comes after it. -/
def findNumber (text : List Char) : Option Nat × List Char :=
  let text := text.dropWhile fun c => !c.isDigit
  let digits := text.takeWhile Char.isDigit
  (if digits.isEmpty then none else some (Nat.ofDigitChars 10 digits 0),
    text.dropWhile Char.isDigit)

/-- Read a line: the digits up to the closing brace are octants, and the numbers
behind it are the number of stars and the size of the sample. -/
def read (line : List Char) : Headline :=
  let route := line.takeWhile (· ≠ '}')
  let (count, rest) := findNumber (line.dropWhile (· ≠ '}'))
  { path := (route.filter Char.isDigit).map fun c =>
      .ofIndex (Nat.ofDigitChars 10 [c] 0)
    count := count.getD 0
    sampled := (findNumber rest).1 }

theorem findNumber_append {before : List Char}
    (hbefore : before.any Char.isDigit = false) (n : Nat) {c : Char}
    (hc : c.isDigit = false) (rest : List Char) :
    findNumber (before ++ Nat.toDigits 10 n ++ c :: rest) =
      (some n, c :: rest) := by
  have hdigits : ∀ d ∈ Nat.toDigits 10 n, d.isDigit = true :=
    fun d hd => Nat.isDigit_of_mem_toDigits (by decide) (by decide) hd
  obtain ⟨d, digits, hsome⟩ :=
    List.exists_cons_of_ne_nil (@Nat.toDigits_ne_nil n 10)
  have hdrop : (before ++ Nat.toDigits 10 n ++ c :: rest).dropWhile
      (fun c => !c.isDigit) = Nat.toDigits 10 n ++ c :: rest := by
    have hd : d.isDigit = true := hdigits d (hsome ▸ List.mem_cons_self)
    rw [List.append_assoc, List.dropWhile_append_of_pos (by simpa using hbefore),
      hsome, List.cons_append, List.dropWhile_cons_of_neg (by simp [hd])]
  have htake : (Nat.toDigits 10 n ++ c :: rest).takeWhile Char.isDigit =
      Nat.toDigits 10 n := by
    rw [List.takeWhile_append_of_pos hdigits,
      List.takeWhile_cons_of_neg (by simp [hc]), List.append_nil]
  have hrest : (Nat.toDigits 10 n ++ c :: rest).dropWhile Char.isDigit =
      c :: rest := by
    rw [List.dropWhile_append_of_pos hdigits,
      List.dropWhile_cons_of_neg (by simp [hc])]
  rw [findNumber, hdrop, htake, hrest, if_neg (by simp [hsome]),
    Nat.ofDigitChars_ten_toDigits]

theorem findNumber_of_no_digit {text : List Char}
    (htext : text.any Char.isDigit = false) : (findNumber text).1 = none := by
  have hdrop : text.dropWhile (fun c => !c.isDigit) = [] := by
    rw [List.dropWhile_eq_nil_iff]
    simpa using htext
  rw [findNumber, hdrop]
  rfl

end Headline

/-! ## Lines are read as they were written -/

def routeText (path : List Octant) : List Char :=
  ['-', '>'].intercalate (path.map fun o => Nat.toDigits 10 o.index)

theorem toList_pathText (path : List Octant) :
    (pathText path).toList = routeText path := by
  rw [pathText, String.toList_intercalate, List.map_map, routeText]
  congr 2
  funext o
  exact Nat.toList_repr

theorem routeText_cons_cons (o p : Octant) (path : List Octant) :
    routeText (o :: p :: path) =
      Nat.toDigits 10 o.index ++ ['-', '>'] ++ routeText (p :: path) :=
  List.intercalate_cons_cons

theorem toDigits_index (o : Octant) :
    ∃ c, Nat.toDigits 10 o.index = [c] ∧ c.isDigit = true ∧
      Octant.ofIndex (Nat.ofDigitChars 10 [c] 0) = o := by
  obtain ⟨_ | _, _ | _, _ | _⟩ := o <;> exact ⟨_, rfl, by decide, by decide⟩

/-- The digits of a route are the octants of the path. -/
theorem map_filter_routeText (path : List Octant) :
    ((routeText path).filter Char.isDigit).map
      (fun c => Octant.ofIndex (Nat.ofDigitChars 10 [c] 0)) = path := by
  induction path with
  | nil => rfl
  | cons o path ih =>
      obtain ⟨c, hdigits, hdigit, hoctant⟩ := toDigits_index o
      cases path with
      | nil => simp [routeText, List.intercalate_singleton, hdigits, hdigit, hoctant]
      | cons p path =>
          rw [routeText_cons_cons, List.filter_append, List.map_append, ih,
            hdigits]
          simp [hdigit, hoctant]

theorem mem_routeText {path : List Octant} {c : Char} (h : c ∈ routeText path) :
    c.isDigit = true ∨ c = '-' ∨ c = '>' := by
  induction path with
  | nil => exact absurd h List.not_mem_nil
  | cons o path ih =>
      obtain ⟨d, hdigits, hdigit, _⟩ := toDigits_index o
      cases path with
      | nil =>
          rw [routeText, List.map_singleton, List.intercalate_singleton, hdigits,
            List.mem_singleton] at h
          exact .inl (h ▸ hdigit)
      | cons p path =>
          rw [routeText_cons_cons, hdigits, List.mem_append] at h
          rcases h with h | h
          · simp only [List.singleton_append, List.mem_cons,
              List.not_mem_nil, or_false] at h
            rcases h with rfl | h
            · exact .inl hdigit
            · exact .inr h
          · exact ih h

namespace Entry

/-- What stands in a line behind the number of stars. -/
def mark (entry : Entry) : List Char :=
  if entry.isLeaf then " - [Leaf]".toList
  else " LOD: ".toList ++ Nat.toDigits 10 entry.cell.stars.size ++
    " - [Parent]".toList

/-- A line without its line break. -/
def row (entry : Entry) : List Char :=
  List.replicate (2 * (entry.path.length - 1)) ' ' ++ '{' ::
    (routeText entry.path ++ '}' ::
      (" : ".toList ++ Nat.toDigits 10 entry.cell.count ++ entry.mark))

theorem toList_line (entry : Entry) :
    entry.line.toList = entry.row ++ ['\n'] := by
  rw [line, row, mark]
  split <;> simp [toList_pathText]

variable (entry : Entry)

theorem exists_mark_eq : ∃ rest, entry.mark = ' ' :: rest := by
  rw [mark]
  split
  · exact ⟨_, rfl⟩
  · exact ⟨_, rfl⟩

theorem sampled_mark :
    (Headline.findNumber entry.mark).1 = entry.headline.sampled := by
  rw [mark, headline]
  split
  · exact Headline.findNumber_of_no_digit rfl
  · have hbefore : " LOD: ".toList.any Char.isDigit = false := rfl
    exact congrArg Prod.fst
      (Headline.findNumber_append hbefore entry.cell.stars.size rfl _)

theorem read_row : Headline.read entry.row = entry.headline := by
  have hroute : ∀ c ∈ List.replicate (2 * (entry.path.length - 1)) ' ' ++
      '{' :: routeText entry.path, decide (c ≠ '}') = true := by
    intro c hc
    rw [decide_eq_true_iff]
    rintro rfl
    rcases List.mem_append.mp hc with hc | hc
    · exact absurd (List.eq_of_mem_replicate hc) (by decide)
    · rcases List.mem_cons.mp hc with hc | hc
      · exact absurd hc (by decide)
      · exact absurd (mem_routeText hc) (by decide)
  have hrow : entry.row =
      (List.replicate (2 * (entry.path.length - 1)) ' ' ++
        '{' :: routeText entry.path) ++ '}' ::
          (" : ".toList ++ Nat.toDigits 10 entry.cell.count ++ entry.mark) := by
    simp [row]
  obtain ⟨rest, hmark⟩ := entry.exists_mark_eq
  have hbefore : ('}' :: " : ".toList).any Char.isDigit = false := rfl
  have hcount : Headline.findNumber ('}' ::
      (" : ".toList ++ Nat.toDigits 10 entry.cell.count ++ entry.mark)) =
        (some entry.cell.count, entry.mark) := by
    rw [hmark]
    exact Headline.findNumber_append hbefore entry.cell.count rfl rest
  have hpath : ((List.replicate (2 * (entry.path.length - 1)) ' ' ++
      '{' :: routeText entry.path).filter Char.isDigit).map
        (fun c => Octant.ofIndex (Nat.ofDigitChars 10 [c] 0)) = entry.path := by
    rw [List.filter_append, List.filter_replicate_of_neg (by decide),
      List.nil_append, List.filter_cons_of_neg (by decide),
      map_filter_routeText]
  rw [Headline.read, hrow, List.takeWhile_append_of_pos hroute,
    List.dropWhile_append_of_pos hroute, List.takeWhile_cons_of_neg (by decide),
    List.dropWhile_cons_of_neg (by decide), List.append_nil, hcount, hpath]
  change ({ sampled := (Headline.findNumber entry.mark).1, .. } : Headline) = _
  rw [sampled_mark]
  rfl

theorem indentation_row :
    indentation entry.row = 2 * (entry.path.length - 1) := by
  have hblank : ∀ c ∈ List.replicate (2 * (entry.path.length - 1)) ' ',
      decide (c = ' ') = true := by
    intro c hc
    rw [List.eq_of_mem_replicate hc]
    rfl
  rw [indentation, row, List.takeWhile_append_of_pos hblank,
    List.takeWhile_cons_of_neg (by decide), List.append_nil,
    List.length_replicate]

/-- A line has no line break inside. -/
theorem not_mem_row : '\n' ∉ entry.row := by
  have hdigits : ∀ n, '\n' ∉ Nat.toDigits 10 n := fun n hmem =>
    absurd (Nat.isDigit_of_mem_toDigits (by decide) (by decide) hmem)
      (by decide)
  have hroute : '\n' ∉ routeText entry.path := fun hmem =>
    absurd (mem_routeText hmem) (by decide)
  have hmark : '\n' ∉ entry.mark := by
    rw [mark]
    split
    · decide
    · simp [hdigits]
  simp [row, hroute, hdigits, hmark]

end Entry

/-! ## Texts -/

theorem textLines_eq {text : String} {rows : List (List Char)}
    (hrows : ∀ row ∈ rows, '\n' ∉ row)
    (htext : text.toList = rows.flatMap fun row => row ++ ['\n']) :
    textLines text = rows := by
  have hsplit : (rows.flatMap fun row => row ++ ['\n']).splitOn '\n' =
      rows ++ [[]] := by
    clear htext
    induction rows with
    | nil => exact List.splitOn_nil '\n'
    | cons row rows ih =>
        obtain ⟨hrow, hrest⟩ := List.forall_mem_cons.mp hrows
        rw [List.flatMap_cons, List.append_assoc, List.singleton_append,
          List.splitOn_append_cons_self_of_not_mem hrow, ih hrest]
        rfl
  rw [textLines, htext, hsplit, List.dropLast_concat]

theorem Tree.textLines_outline (tree : Tree) :
    textLines tree.outline = tree.listing.map Entry.row := by
  apply textLines_eq
  · intro row hrow
    obtain ⟨entry, _, rfl⟩ := List.mem_map.mp hrow
    exact entry.not_mem_row
  · rw [outline, String.toList_join, List.flatMap_map, List.flatMap_map]
    exact List.flatMap_congr fun entry _ => entry.toList_line

/-! ## Shapes -/

namespace Node

/-- Two subtrees have the same shape, the same numbers of stars and samples of the
same size. -/
inductive Resembles : Node → Node → Prop
  | leaf {cell cell' : Cell} (count : cell'.count = cell.count) :
      Resembles (.leaf cell) (.leaf cell')
  | inner {cell cell' : Cell} {children children' : Octant → Node}
      (count : cell'.count = cell.count)
      (sampled : cell'.stars.size = cell.stars.size)
      (below : ∀ o, Resembles (children o) (children' o)) :
      Resembles (.inner cell children) (.inner cell' children')

/-- What is told about the nodes of a subtree, in pre-order. -/
def headlines (path : List Octant) (place : Place) (node : Node) :
    List Headline :=
  (node.listing path place).map Entry.headline

end Node

/-- When the parts for each octant can be told from what comes after them, so can
the parts for several octants in a row. -/
theorem Octant.forall_of_flatMap_append {α : Type} {f g : Octant → List α}
    {R : Octant → Prop}
    (h : ∀ o xs ys, f o ++ xs = g o ++ ys → R o ∧ xs = ys) (os : List Octant)
    {xs ys : List α} (hos : os.flatMap f ++ xs = os.flatMap g ++ ys) :
    (∀ o ∈ os, R o) ∧ xs = ys := by
  induction os with
  | nil => exact ⟨nofun, hos⟩
  | cons o os ih =>
      rw [List.flatMap_cons, List.flatMap_cons, List.append_assoc,
        List.append_assoc] at hos
      obtain ⟨ho, hrest⟩ := h o _ _ hos
      obtain ⟨hall, hend⟩ := ih hrest
      exact ⟨List.forall_mem_cons.mpr ⟨ho, hall⟩, hend⟩

/-- What is told about a subtree shows where it ends: an inner node has a sample
and is followed by its eight children, a leaf has none and is followed by what
comes after it. -/
theorem Node.resembles_of_headlines {node other : Node}
    {path path' : List Octant} {place place' : Place} {xs ys : List Headline}
    (h : node.headlines path place ++ xs = other.headlines path' place' ++ ys) :
    node.Resembles other ∧ xs = ys := by
  induction node generalizing other path path' place place' xs ys with
  | leaf cell =>
      cases other with
      | leaf cell' =>
          obtain ⟨hhead, hrest⟩ := List.cons.inj h
          exact ⟨.leaf (congrArg Headline.count hhead).symm, hrest⟩
      | inner cell' children' =>
          exact absurd (congrArg Headline.sampled (List.cons.inj h).1) nofun
  | inner cell children ih =>
      cases other with
      | leaf cell' =>
          exact absurd (congrArg Headline.sampled (List.cons.inj h).1) nofun
      | inner cell' children' =>
          simp only [headlines, listing, List.map_cons, List.map_flatMap,
            List.cons_append] at h
          obtain ⟨hhead, hbelow⟩ := List.cons.inj h
          obtain ⟨hall, hrest⟩ := Octant.forall_of_flatMap_append
            (fun o _ _ ho => ih o ho) Octant.all hbelow
          have hsampled : some cell.stars.size = some cell'.stars.size :=
            congrArg Headline.sampled hhead
          exact ⟨.inner (congrArg Headline.count hhead).symm
            (Option.some.inj hsampled).symm
            fun o => hall o (Octant.mem_all o), hrest⟩

/-- The path of an entry leads to a node that is as the entry says. -/
theorem Node.descend?_of_mem_listing {node : Node} {path : List Octant}
    {place : Place} {entry : Entry} (h : entry ∈ node.listing path place) :
    ∃ below found, entry.path = path ++ below ∧
      node.descend? below = some found ∧ found.cell = entry.cell ∧
      found.isLeaf = entry.isLeaf := by
  induction node generalizing path place with
  | leaf cell =>
      rw [listing, List.mem_singleton] at h
      subst h
      exact ⟨[], _, (List.append_nil path).symm, rfl, rfl, rfl⟩
  | inner cell children ih =>
      rw [listing, List.mem_cons, List.mem_flatMap] at h
      rcases h with rfl | ⟨o, _, ho⟩
      · exact ⟨[], _, (List.append_nil path).symm, rfl, rfl, rfl⟩
      · obtain ⟨below, found, hpath, hfound, hsame⟩ := ih o ho
        refine ⟨o :: below, found, ?_, hfound, hsame⟩
        rw [hpath, List.append_assoc, List.singleton_append]

namespace Tree

variable {tree other : Tree}

/-- The node that a path leads to from the domain.  The domain itself is none. -/
def node? (tree : Tree) : List Octant → Option Node
  | [] => none
  | o :: path => (tree.octants o).descend? path

theorem node?_of_mem_listing {entry : Entry} (h : entry ∈ tree.listing) :
    ∃ node, tree.node? entry.path = some node ∧ node.cell = entry.cell ∧
      node.isLeaf = entry.isLeaf := by
  obtain ⟨o, _, ho⟩ := List.mem_flatMap.mp h
  obtain ⟨below, found, hpath, hfound, hsame⟩ := Node.descend?_of_mem_listing ho
  exact ⟨found, hpath ▸ hfound, hsame⟩

theorem resembles_of_headlines
    (h : tree.listing.map Entry.headline = other.listing.map Entry.headline)
    (o : Octant) : (tree.octants o).Resembles (other.octants o) := by
  have hall : Octant.all.flatMap (fun o => (tree.octants o).headlines [o]
      (tree.domain.child o)) ++ [] =
        Octant.all.flatMap (fun o => (other.octants o).headlines [o]
          (other.domain.child o)) ++ [] := by
    rw [List.append_nil, List.append_nil]
    simpa only [listing, Node.headlines, List.map_flatMap] using h
  exact (Octant.forall_of_flatMap_append
    (fun _ _ _ ho => Node.resembles_of_headlines ho) Octant.all hall).1 o
      (Octant.mem_all o)

/-- The outline of a tree tells what there is to tell about its nodes. -/
structure Outlined (tree : Tree) : Prop where
  /-- There are as many lines as the tree has nodes. -/
  length : (textLines tree.outline).length = tree.census.nodes
  /-- The lines tell about the nodes in pre-order. -/
  reads : (textLines tree.outline).map Headline.read =
    tree.listing.map Entry.headline
  /-- A line begins with two blanks for each level below the octants. -/
  indents : (textLines tree.outline).map indentation =
    tree.listing.map fun entry => 2 * (entry.place.depth - 1)
  /-- The paths lead to the nodes that they stand for. -/
  leads : ∀ entry ∈ tree.listing, ∃ node,
    tree.node? entry.path = some node ∧ node.cell = entry.cell ∧
      node.isLeaf = entry.isLeaf

theorem Reachable.outlined_lines (h : Reachable tree) : tree.Outlined where
  length := by
    rw [textLines_outline, List.length_map, h.nodes_eq]
  reads := by
    rw [textLines_outline, List.map_map]
    exact List.map_congr_left fun entry _ => entry.read_row
  indents := by
    rw [textLines_outline, List.map_map]
    refine List.map_congr_left fun entry hentry => ?_
    rw [depth_of_mem_listing hentry]
    exact entry.indentation_row
  leads := fun _ hentry => node?_of_mem_listing hentry

/-- The outline of a tree that a session can come to has a line for each node,
which can be read back, and trees with the same outline have the same shape, the
same numbers of stars and samples of the same size. -/
theorem Reachable.outline_faithful (h : Reachable tree)
    (hother : Reachable other) :
    tree.Outlined ∧ (other.outline = tree.outline →
      ∀ o, (tree.octants o).Resembles (other.octants o)) := by
  have hlines := h.outlined_lines
  refine ⟨hlines, fun hsame => ?_⟩
  apply resembles_of_headlines
  rw [← hlines.reads, ← hother.outlined_lines.reads, hsame]

/-- A tree with four inner nodes on two slots, and the same with every slot
free. -/
theorem outline_faithful_crowdedSplit :
    let vacated := crowdedSplit.act (.resizeBuffer 3)
    (textLines crowdedSplit.outline).length = 40 ∧
      vacated.outline = crowdedSplit.outline ∧
      ∀ o, (crowdedSplit.octants o).Resembles (vacated.octants o) := by
  intro vacated
  have hreachable : Reachable crowdedSplit :=
    (managed_crowdedTwice.reachable.act _).act _
  have hsame : vacated.outline = crowdedSplit.outline := by decide +kernel
  have hnodes : crowdedSplit.census.nodes = 40 := by decide +kernel
  obtain ⟨hlines, hresembles⟩ := Reachable.outline_faithful hreachable
    (hreachable.act (.resizeBuffer 3))
  exact ⟨hlines.length.trans hnodes, hsame, hresembles hsame⟩

end Tree

end Starfield
