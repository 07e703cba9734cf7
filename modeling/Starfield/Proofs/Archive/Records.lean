import Starfield.Proofs.Archive.Words
import Starfield.Proofs.Regular

/-!
# Nodes read from bytes

The values of a cell are stored attribute by attribute and gathered into stars
again.  Reading a record, and reading a whole subtree, succeeds exactly when the
bytes begin with what is written for a node that may be stored at that place.
-/

namespace Starfield

/-! ## Attributes one after the other -/

namespace Layout

variable {layout : Layout} {star : Star} {stars : List Star}

theorem length_positionOf (hstar : star.length = layout.width) :
    (layout.positionOf star).length = layout.position := by
  rw [width] at hstar
  rw [positionOf, List.length_take]
  omega

theorem length_colorOf (hstar : star.length = layout.width) :
    (layout.colorOf star).length = layout.color := by
  rw [width] at hstar
  rw [colorOf, List.length_take, List.length_drop]
  omega

theorem length_motionOf (hstar : star.length = layout.width) :
    (layout.motionOf star).length = layout.motion := by
  rw [width] at hstar
  rw [motionOf, List.length_drop]
  omega

/-- The attributes of all stars, each attribute in a row of its own. -/
def scatter (layout : Layout) (stars : List Star) : List Value :=
  stars.flatMap layout.positionOf ++ stars.flatMap layout.colorOf ++
    stars.flatMap layout.motionOf

theorem length_scatter (hstars : ∀ star ∈ stars, star.length = layout.width) :
    (layout.scatter stars).length = stars.length * layout.width := by
  rw [scatter, List.length_append, List.length_append,
    length_flatMap_of_forall fun star hstar => length_positionOf (hstars star hstar),
    length_flatMap_of_forall fun star hstar => length_colorOf (hstars star hstar),
    length_flatMap_of_forall fun star hstar => length_motionOf (hstars star hstar),
    width, Nat.mul_add, Nat.mul_add]

end Layout

namespace Archive

variable {layout : Layout}

/-- Stars whose attributes were stored one after the other are gathered again. -/
theorem gather_scatter {stars : List Star}
    (hstars : ∀ star ∈ stars, star.length = layout.width) :
    gather layout stars.length (layout.scatter stars) = stars := by
  have hposition := fun star hstar => Layout.length_positionOf (hstars star hstar)
  have hcolor := fun star hstar => Layout.length_colorOf (hstars star hstar)
  have hmotion := fun star hstar => Layout.length_motionOf (hstars star hstar)
  have hmotions := rows_flatMap_append hmotion []
  rw [List.append_nil] at hmotions
  simp only [gather, Layout.scatter, List.append_assoc]
  rw [rows_flatMap_append hposition,
    List.drop_left' (length_flatMap_of_forall hposition),
    rows_flatMap_append hcolor,
    List.drop_left' (length_flatMap_of_forall hcolor), hmotions,
    List.zipWith_map, List.zipWith_self, List.zipWith_map_left,
    List.zipWith_map_right, List.zipWith_self]
  simp only [← List.append_assoc,
    Layout.positionOf_append_colorOf_append_motionOf, List.map_id']

section

variable {count : Nat} {positions colors motions : List (List Value)}

def zip (positions colors motions : List (List Value)) : List Star :=
  positions.zipWith (· ++ ·) (colors.zipWith (· ++ ·) motions)

theorem length_zip (hpositions : positions.length = count)
    (hcolors : colors.length = count) (hmotions : motions.length = count) :
    (zip positions colors motions).length = count := by
  rw [zip, List.length_zipWith, List.length_zipWith, hpositions, hcolors,
    hmotions, Nat.min_self, Nat.min_self]

theorem map_positionOf_zip (hpositions : positions.length = count)
    (hcolors : colors.length = count) (hmotions : motions.length = count)
    (hposition : ∀ line ∈ positions, line.length = layout.position) :
    (zip positions colors motions).map layout.positionOf = positions := by
  apply List.ext_getElem
  · rw [List.length_map, length_zip hpositions hcolors hmotions, hpositions]
  · intro i _ hi
    simp only [List.getElem_map, zip, List.getElem_zipWith, Layout.positionOf]
    exact List.take_left' (hposition _ (List.getElem_mem hi))

theorem map_colorOf_zip (hpositions : positions.length = count)
    (hcolors : colors.length = count) (hmotions : motions.length = count)
    (hposition : ∀ line ∈ positions, line.length = layout.position)
    (hcolor : ∀ line ∈ colors, line.length = layout.color) :
    (zip positions colors motions).map layout.colorOf = colors := by
  apply List.ext_getElem
  · rw [List.length_map, length_zip hpositions hcolors hmotions, hcolors]
  · intro i _ hi
    simp only [List.getElem_map, zip, List.getElem_zipWith, Layout.colorOf]
    rw [List.drop_left' (hposition _ (List.getElem_mem _))]
    exact List.take_left' (hcolor _ (List.getElem_mem hi))

theorem map_motionOf_zip (hpositions : positions.length = count)
    (hcolors : colors.length = count) (hmotions : motions.length = count)
    (hposition : ∀ line ∈ positions, line.length = layout.position)
    (hcolor : ∀ line ∈ colors, line.length = layout.color) :
    (zip positions colors motions).map layout.motionOf = motions := by
  apply List.ext_getElem
  · rw [List.length_map, length_zip hpositions hcolors hmotions, hmotions]
  · intro i _ hi
    simp only [List.getElem_map, zip, List.getElem_zipWith, Layout.motionOf]
    rw [← List.drop_drop, List.drop_left' (hposition _ (List.getElem_mem _))]
    exact List.drop_left' (hcolor _ (List.getElem_mem _))

end

/-- Whole stars are gathered, and their attributes are the values that were
stored. -/
theorem scatter_gather {count : Nat} {values : List Value}
    (hvalues : values.length = count * layout.width) :
    layout.scatter (gather layout count values) = values ∧
      (gather layout count values).length = count ∧
      ∀ star ∈ gather layout count values, star.length = layout.width := by
  rw [Layout.width, Nat.mul_add, Nat.mul_add] at hvalues
  let colors := values.drop (count * layout.position)
  let motions := colors.drop (count * layout.color)
  have hcolors : colors.length =
      count * layout.color + count * layout.motion := by
    rw [List.length_drop]
    omega
  have hmotions : motions.length = count * layout.motion := by
    rw [List.length_drop]
    omega
  have hposition : ∀ line ∈ rows layout.position count values,
      line.length = layout.position :=
    fun line => length_of_mem_rows (by omega)
  have hcolor : ∀ line ∈ rows layout.color count colors,
      line.length = layout.color :=
    fun line => length_of_mem_rows (by omega)
  have hmotion : ∀ line ∈ rows layout.motion count motions,
      line.length = layout.motion :=
    fun line => length_of_mem_rows (by omega)
  have hgather : gather layout count values =
      zip (rows layout.position count values) (rows layout.color count colors)
        (rows layout.motion count motions) := rfl
  have hlength {width : Nat} {values : List Value} :
      (rows width count values).length = count := length_rows width count values
  rw [hgather]
  refine ⟨?_, length_zip hlength hlength hlength, ?_⟩
  · rw [Layout.scatter, List.flatMap_def, List.flatMap_def, List.flatMap_def,
      map_positionOf_zip hlength hlength hlength hposition,
      map_colorOf_zip hlength hlength hlength hposition hcolor,
      map_motionOf_zip hlength hlength hlength hposition hcolor,
      flatten_rows, flatten_rows, flatten_rows,
      List.take_of_length_le (Nat.le_of_eq hmotions), List.append_assoc,
      List.take_append_drop, List.take_append_drop]
  · intro star hstar
    obtain ⟨i, hi, rfl⟩ := List.getElem_of_mem hstar
    simp only [zip, List.getElem_zipWith, List.length_append, Layout.width]
    rw [hposition _ (List.getElem_mem _), hcolor _ (List.getElem_mem _),
      hmotion _ (List.getElem_mem _), Nat.add_assoc]

end Archive

/-! ## Cells -/

/-- What is written for the cell of a leaf or of an inner node. -/
def Cell.record (layout : Layout) (isLeaf : Bool) (cell : Cell) : Bytes :=
  (if isLeaf then 1 else 0) ::
    (wordBytes cell.count.toUInt32 ++
      wordBytes (cell.values layout).length.toUInt32 ++
      valueBytes (cell.values layout))

theorem Cell.values_eq (layout : Layout) (cell : Cell) :
    cell.values layout = layout.scatter cell.stars.toList := rfl

/-- A cell as archives have them: it is regular and holds no slot, and its
numbers fit into words with a sign. -/
structure Cell.Stored (layout : Layout) (capacity : Nat) (isLeaf : Bool)
    (cell : Cell) : Prop extends cell.Regular layout capacity isLeaf where
  vacant : cell.tenancy = none
  count_lt : cell.count < 2 ^ 31
  size_lt : (cell.values layout).length < 2 ^ 31

theorem Stocked.length_values {layout : Layout} {capacity : Nat} {cell : Cell}
    (h : Stocked layout capacity cell.stars) :
    (cell.values layout).length = cell.stars.size * layout.width := by
  rw [Cell.values_eq, Layout.length_scatter h.whole_toList, Array.length_toList]

namespace Archive

variable {layout : Layout} {capacity depth : Nat} {bytes rest : Bytes}
  {isLeaf : Bool} {cell : Cell}

/-- Values that are as many as the numbers of a record demand make a cell that may
be stored, and they are the values of this cell. -/
theorem stored_of_values {count size : Nat} {values : List Value}
    (hcount : count < 2 ^ 31) (hsize : size < 2 ^ 31)
    (hlength : values.length = size) (hwhole : size % layout.width = 0)
    (hroom : size / layout.width ≤ capacity)
    (hleaf : isLeaf = true → size / layout.width = count) :
    let cell : Cell :=
      { count, stars := (gather layout (size / layout.width) values).toArray }
    cell.Stored layout capacity isLeaf ∧ cell.values layout = values := by
  intro cell
  have hstars : values.length = size / layout.width * layout.width := by
    rw [hlength, Nat.div_mul_cancel (Nat.dvd_of_mod_eq_zero hwhole)]
  obtain ⟨hvalues, hgathered, hwidth⟩ := scatter_gather hstars
  have hcell : cell.values layout = values := hvalues
  have hnumber : cell.stars.size = size / layout.width := by
    rw [List.size_toArray, hgathered]
  refine ⟨⟨⟨⟨?_, ?_⟩, ?_⟩, rfl, hcount, ?_⟩, hcell⟩
  · rw [hnumber]
    exact hroom
  · exact fun star hstar => hwidth star (List.mem_toArray.mp hstar)
  · exact fun h => (hleaf h).symm.trans hnumber.symm
  · rw [hcell, hlength]
    exact hsize

theorem stored_of_takeCell
    (h : takeCell layout capacity depth bytes = .ok ((isLeaf, cell), rest)) :
    cell.Stored layout capacity isLeaf ∧
      bytes = cell.record layout isLeaf ++ rest := by
  rw [takeCell] at h
  obtain ⟨⟨mark, bytes₁⟩, hmark, h⟩ := ok_of_bind h
  obtain ⟨⟨claimed, bytes₂⟩, hclaimed, h⟩ := ok_of_bind h
  obtain ⟨⟨given, bytes₃⟩, hgiven, h⟩ := ok_of_bind h
  obtain ⟨hsigns, h⟩ := ok_of_check h
  obtain ⟨hsize, h⟩ := ok_of_check h
  obtain ⟨hcount, h⟩ := ok_of_check h
  obtain ⟨⟨values, bytes₄⟩, hvalues, h⟩ := ok_of_bind h
  rw [not_or, Int.not_lt, Int.not_lt] at hsigns
  obtain ⟨count, rfl⟩ := Int.eq_ofNat_of_zero_le hsigns.1
  obtain ⟨size, rfl⟩ := Int.eq_ofNat_of_zero_le hsigns.2
  cases h
  simp only [Int.toNat_natCast, ne_eq, not_or, not_and, not_not, Nat.not_lt]
    at hsize hcount hvalues ⊢
  rw [takeLeafMark_eq_ok_iff] at hmark
  rw [takeNumber_eq_ok_natCast_iff] at hclaimed hgiven
  obtain ⟨hlength, hvalues⟩ := takeValues_eq_ok_iff.mp hvalues
  obtain ⟨hstored, hcell⟩ := stored_of_values hclaimed.1 hgiven.1 hlength
    hsize.1 hsize.2 hcount
  refine ⟨hstored, ?_⟩
  rw [Cell.record, hcell, hlength, hmark, hclaimed.2, hgiven.2, hvalues]
  simp only [List.cons_append, List.append_assoc]

/-- What is written for a cell is read back, whatever follows. -/
theorem takeCell_record_append (hwidth : 0 < layout.width)
    (h : cell.Stored layout capacity isLeaf) (rest : Bytes) :
    takeCell layout capacity depth (cell.record layout isLeaf ++ rest) =
      .ok ((isLeaf, cell), rest) := by
  have hlength := h.stocked.length_values
  have hdiv : (cell.values layout).length / layout.width = cell.stars.size := by
    rw [hlength, Nat.mul_div_cancel _ hwidth]
  have hgather : gather layout cell.stars.size (cell.values layout) =
      cell.stars.toList := by
    rw [Cell.values_eq, ← Array.length_toList]
    exact gather_scatter h.stocked.whole_toList
  have hrecord : cell.record layout isLeaf ++ rest =
      (if isLeaf then 1 else 0) :: (wordBytes cell.count.toUInt32 ++
        (wordBytes (cell.values layout).length.toUInt32 ++
          (valueBytes (cell.values layout) ++ rest))) := by
    simp only [Cell.record, List.cons_append, List.append_assoc]
  rw [hrecord, takeCell]
  refine bind_eq_ok_iff.mpr ⟨(isLeaf, _), takeLeafMark_eq_ok_iff.mpr rfl, ?_⟩
  refine bind_eq_ok_iff.mpr
    ⟨(cell.count, _), takeNumber_eq_ok_natCast_iff.mpr ⟨h.count_lt, rfl⟩, ?_⟩
  refine bind_eq_ok_iff.mpr ⟨((cell.values layout).length, _),
    takeNumber_eq_ok_natCast_iff.mpr ⟨h.size_lt, rfl⟩, ?_⟩
  refine check_eq_ok_iff.mpr ⟨by omega, check_eq_ok_iff.mpr ⟨?_, ?_⟩⟩
  · rw [Int.toNat_natCast, hdiv, hlength]
    simp [h.stocked.room]
  refine check_eq_ok_iff.mpr ⟨?_, bind_eq_ok_iff.mpr
    ⟨(cell.values layout, rest), takeValues_eq_ok_iff.mpr ⟨rfl, rfl⟩, ?_⟩⟩
  · rw [Int.toNat_natCast, Int.toNat_natCast, hdiv]
    exact fun hcount => hcount.2 (h.count hcount.1).symm
  · obtain ⟨count, stars, tenancy⟩ := cell
    obtain rfl := h.vacant
    simp only [Int.toNat_natCast, hdiv, hgather]
    rfl

theorem takeCell_eq_ok_iff (hwidth : 0 < layout.width) :
    takeCell layout capacity depth bytes = .ok ((isLeaf, cell), rest) ↔
      cell.Stored layout capacity isLeaf ∧
        bytes = cell.record layout isLeaf ++ rest := by
  refine ⟨stored_of_takeCell, ?_⟩
  rintro ⟨hstored, rfl⟩
  exact takeCell_record_append hwidth hstored rest

end Archive

/-! ## Subtrees -/

section

variable {α β ε : Type} {P : Octant → β → Prop} {code : Octant → β → List α}
  {f : Octant → List α → Except ε (β × List α)} {family : Octet β}
  {s after : List α}

/-- When each octant reads just what is written for its result, then a run along
a list reads just what is written for the results one after the other. -/
theorem Octant.makes_iff
    (h : ∀ o s x after, f o s = .ok (x, after) ↔ P o x ∧ s = code o x ++ after)
    (family : Octant → β) (os : List Octant) :
    Makes f family os s after ↔
      (∀ o ∈ os, P o (family o)) ∧
        s = (os.flatMap fun o => code o (family o)) ++ after := by
  induction os generalizing s with
  | nil => exact ⟨fun hs => ⟨nofun, hs⟩, fun hs => hs.2⟩
  | cons o os ih =>
      simp only [Makes, h, ih, List.forall_mem_cons, List.flatMap_cons,
        List.append_assoc]
      constructor
      · rintro ⟨_, ⟨hhere, rfl⟩, hrest, rfl⟩
        exact ⟨⟨hhere, hrest⟩, rfl⟩
      · rintro ⟨⟨hhere, hrest⟩, rfl⟩
        exact ⟨_, ⟨hhere, rfl⟩, hrest, rfl⟩

theorem Octet.thread?_eq_ok_iff
    (h : ∀ o s x after, f o s = .ok (x, after) ↔ P o x ∧ s = code o x ++ after) :
    thread? f s = .ok (family, after) ↔
      (∀ o, P o (family.get o)) ∧
        s = (Octant.all.flatMap fun o => code o (family.get o)) ++ after := by
  rw [thread?_eq_ok_iff_makes, Octant.makes_iff h]
  exact and_congr_left fun _ =>
    ⟨fun hall o => hall o (Octant.mem_all o), fun hall o _ => hall o⟩

end

/-- A subtree as archives have it below a place where inner nodes may lie on so
many levels. -/
structure Node.Stored (layout : Layout) (capacity levels : Nat) (node : Node) :
    Prop where
  cells : node.All (Cell.Stored layout capacity)
  within : node.Within levels

namespace Node

variable {layout : Layout} {capacity levels : Nat} {cell : Cell}
  {children : Octant → Node}

theorem stored_leaf_iff :
    (leaf cell).Stored layout capacity levels ↔
      cell.Stored layout capacity true :=
  ⟨fun h => h.cells, fun h => ⟨h, trivial⟩⟩

theorem stored_inner_iff :
    (inner cell children).Stored layout capacity levels ↔
      0 < levels ∧ cell.Stored layout capacity false ∧
        ∀ o, (children o).Stored layout capacity (levels - 1) := by
  constructor
  · rintro ⟨⟨hcell, hcells⟩, hpos, hwithin⟩
    exact ⟨hpos, hcell, fun o => ⟨hcells o, hwithin o⟩⟩
  · rintro ⟨hpos, hcell, hchildren⟩
    exact ⟨⟨hcell, fun o => (hchildren o).cells⟩, hpos,
      fun o => (hchildren o).within⟩

theorem Stored.regular {node : Node} (h : node.Stored layout capacity levels) :
    node.All (Cell.Regular layout capacity) :=
  h.cells.mono fun _ _ hcell => hcell.toRegular

theorem encode_leaf (layout : Layout) (cell : Cell) :
    (leaf cell).encode layout = cell.record layout true := rfl

theorem encode_inner (layout : Layout) (cell : Cell)
    (children : Octant → Node) :
    (inner cell children).encode layout = cell.record layout false ++
      Octant.all.flatMap fun o => (children o).encode layout := rfl

end Node

namespace Archive

variable {settings : Settings} {layout : Layout} {levels depth : Nat}
  {bytes rest : Bytes} {node : Node} {cell : Cell} {children : Octant → Node}

theorem takeNode_eq_ok_leaf_iff (hwidth : 0 < layout.width) :
    takeNode settings layout levels depth bytes = .ok (.leaf cell, rest) ↔
      cell.Stored layout settings.starsPerCell true ∧
        bytes = cell.record layout true ++ rest := by
  rw [← takeCell_eq_ok_iff hwidth, takeNode.eq_def, bind_eq_ok_iff]
  constructor
  · rintro ⟨⟨⟨isLeaf, cell'⟩, bytes'⟩, hcell, h⟩
    cases isLeaf with
    | true =>
        cases h
        exact hcell
    | false =>
        cases levels with
        | zero => cases h
        | succ levels =>
            obtain ⟨_, _, h⟩ := ok_of_bind h
            cases h
  · exact fun hcell => ⟨_, hcell, rfl⟩

/-- Inner nodes are accepted only where there are levels left. -/
theorem takeNode_zero_ne_ok_inner :
    takeNode settings layout 0 depth bytes ≠ .ok (.inner cell children, rest) := by
  intro h
  obtain ⟨⟨⟨isLeaf, cell'⟩, bytes'⟩, _, h⟩ := ok_of_bind h
  cases isLeaf <;> cases h

theorem takeNode_succ_eq_ok_inner_iff (hwidth : 0 < layout.width) :
    takeNode settings layout (levels + 1) depth bytes =
        .ok (.inner cell children, rest) ↔
      ∃ bytes', (cell.Stored layout settings.starsPerCell false ∧
          bytes = cell.record layout false ++ bytes') ∧
        Octet.thread?
            (fun _ => takeNode settings layout levels (depth + 1)) bytes' =
          .ok (.ofFamily children, rest) := by
  simp only [← @takeCell_eq_ok_iff layout settings.starsPerCell depth bytes _
    false cell hwidth]
  rw [takeNode, bind_eq_ok_iff]
  constructor
  · rintro ⟨⟨⟨isLeaf, cell'⟩, bytes'⟩, hcell, h⟩
    cases isLeaf with
    | true => cases h
    | false =>
        obtain ⟨⟨family, bytes''⟩, hfamily, h⟩ := ok_of_bind h
        cases h
        exact ⟨bytes', hcell, hfamily⟩
  · rintro ⟨bytes', hcell, hfamily⟩
    refine ⟨((false, cell), bytes'), hcell,
      bind_eq_ok_iff.mpr ⟨(.ofFamily children, rest), hfamily, ?_⟩⟩
    exact congrArg (fun node => Except.ok (node, rest))
      (Node.ofFamily_eq cell children)

/-- The reader of subtrees accepts just what is written for subtrees that may be
stored. -/
theorem takeNode_eq_ok_iff (hwidth : 0 < layout.width) :
    takeNode settings layout levels depth bytes = .ok (node, rest) ↔
      node.Stored layout settings.starsPerCell levels ∧
        bytes = node.encode layout ++ rest := by
  induction levels generalizing depth bytes node rest with
  | zero =>
      cases node with
      | leaf cell =>
          rw [takeNode_eq_ok_leaf_iff hwidth, Node.stored_leaf_iff,
            Node.encode_leaf]
      | inner cell children =>
          rw [Node.stored_inner_iff]
          exact iff_of_false takeNode_zero_ne_ok_inner
            fun h => Nat.lt_irrefl 0 h.1.1
  | succ levels ih =>
      cases node with
      | leaf cell =>
          rw [takeNode_eq_ok_leaf_iff hwidth, Node.stored_leaf_iff,
            Node.encode_leaf]
      | inner cell children =>
          have hchildren (bytes : Bytes) :=
            @Octet.thread?_eq_ok_iff _ _ _
              (fun _ => Node.Stored layout settings.starsPerCell levels)
              (fun _ => Node.encode layout)
              (fun _ => takeNode settings layout levels (depth + 1))
              (.ofFamily children) bytes rest fun _ _ _ _ => ih
          simp only [takeNode_succ_eq_ok_inner_iff hwidth, hchildren,
            Octet.get_ofFamily, Node.stored_inner_iff, Node.encode_inner,
            List.append_assoc]
          constructor
          · rintro ⟨_, ⟨hcell, rfl⟩, hstored, rfl⟩
            exact ⟨⟨Nat.succ_pos levels, hcell, hstored⟩, rfl⟩
          · rintro ⟨⟨_, hcell, hstored⟩, rfl⟩
            exact ⟨_, ⟨hcell, rfl⟩, hstored, rfl⟩

end Archive

end Starfield
