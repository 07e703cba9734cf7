import Starfield.Proofs.Archive.Trees
import Starfield.Proofs.Ownership

/-!
# The format of archives

What the bytes of an archive look like is said here without any writer or
reader.  The reader accepts just the bytes that begin with an archive, and
writing the tree that was read gives this archive back, byte for byte.  Since
the reader returns what it has not consumed, no bytes begin with two archives.
-/

namespace Starfield

namespace Archive

/-- Four bytes that are read as a number with a sign. -/
structure IsNumber (n : Int) (bytes : Bytes) : Prop where
  length : bytes.length = 4
  signed : signed (wordOf bytes) = n

/-- What a record says about its own node: a mark, the number of stars in the
subtree, the number of values that follow, and the values, four bytes each. -/
inductive IsCell (width capacity : Nat) (isLeaf : Bool) : Bytes → Prop
  | mk {count size : Int} {number length payload : Bytes}
      (hnumber : IsNumber count number) (hlength : IsNumber size length)
      (hcount : 0 ≤ count) (hsize : 0 ≤ size) (hwhole : (width : Int) ∣ size)
      (hroom : size / width ≤ capacity)
      (hleaf : isLeaf = true → count = size / width)
      (hpayload : payload.length = 4 * size) :
      IsCell width capacity isLeaf
        ((if isLeaf then 1 else 0) :: (number ++ length ++ payload))

/-- The records of a subtree whose root lies at the given depth.  Inner nodes lie
above the limit only, and the records of their children follow in the order of
the octants. -/
inductive IsSubtree (width capacity limit : Nat) : Nat → Bytes → Prop
  | leaf {depth : Nat} {cell : Bytes} (hcell : IsCell width capacity true cell) :
      IsSubtree width capacity limit depth cell
  | inner {depth : Nat} {cell : Bytes} {children : Octant → Bytes}
      (hdepth : depth < limit) (hcell : IsCell width capacity false cell)
      (hchildren : ∀ o,
        IsSubtree width capacity limit (depth + 1) (children o)) :
      IsSubtree width capacity limit depth
        (cell ++ Octant.all.flatMap children)

end Archive

/-- The bytes of an archive: the width of a star, the number of stars that a cell
may hold, and the records of the eight octants. -/
inductive IsArchive (width limit : Nat) : Bytes → Prop
  | mk {capacity : Nat} {first second : Bytes} {octants : Octant → Bytes}
      (hwidth : Archive.IsNumber width first)
      (hcapacity : Archive.IsNumber capacity second) (hpos : 1 ≤ capacity)
      (hoctants : ∀ o, Archive.IsSubtree width capacity limit 1 (octants o)) :
      IsArchive width limit
        (first ++ second ++ Octant.all.flatMap octants)

/-! ## What is written has this format, and everything of this format is written -/

namespace Archive

variable {layout : Layout} {capacity limit depth : Nat} {isLeaf : Bool}
  {bytes : Bytes}

theorem isNumber_natCast_iff {n : Nat} :
    IsNumber n bytes ↔ n < 2 ^ 31 ∧ bytes = wordBytes n.toUInt32 := by
  constructor
  · rintro ⟨hlength, hsigned⟩
    obtain ⟨hn, hword⟩ := signed_eq_natCast_iff.mp hsigned
    exact ⟨hn, by rw [← hword, wordBytes_wordOf hlength]⟩
  · rintro ⟨hn, rfl⟩
    refine ⟨length_wordBytes _, ?_⟩
    rw [wordOf_wordBytes]
    exact signed_eq_natCast_iff.mpr ⟨hn, rfl⟩

/-- Any four bytes are those of a value. -/
theorem exists_valueBytes {size : Nat} (h : bytes.length = 4 * size) :
    ∃ values, values.length = size ∧ bytes = valueBytes values := by
  have hread : takeValues 0 size bytes =
      .ok (_, bytes.drop (4 * size)) :=
    if_neg (by rw [List.length_take]; omega)
  obtain ⟨hlength, hbytes⟩ := takeValues_eq_ok_iff.mp hread
  rw [List.drop_of_length_le (Nat.le_of_eq h), List.append_nil] at hbytes
  exact ⟨_, hlength, hbytes⟩

theorem isCell_iff (hwidth : 0 < layout.width) :
    IsCell layout.width capacity isLeaf bytes ↔
      ∃ cell : Cell, cell.Stored layout capacity isLeaf ∧
        bytes = cell.record layout isLeaf := by
  constructor
  · rintro ⟨hnumber, hlength, hcount, hsize, hwhole, hroom, hleaf, hpayload⟩
    rename_i count size number length payload
    obtain ⟨count, rfl⟩ := Int.eq_ofNat_of_zero_le hcount
    obtain ⟨size, rfl⟩ := Int.eq_ofNat_of_zero_le hsize
    obtain ⟨hcount, rfl⟩ := isNumber_natCast_iff.mp hnumber
    obtain ⟨hsize, rfl⟩ := isNumber_natCast_iff.mp hlength
    norm_cast at hwhole hroom hleaf hpayload
    obtain ⟨values, hvalues, rfl⟩ := exists_valueBytes hpayload
    obtain ⟨hstored, hcell⟩ := stored_of_values hcount hsize hvalues
      (Nat.mod_eq_zero_of_dvd hwhole) hroom fun h => (hleaf h).symm
    refine ⟨_, hstored, ?_⟩
    rw [Cell.record, hcell, hvalues]
  · rintro ⟨cell, hstored, rfl⟩
    have hvalues := hstored.stocked.length_values
    have hdiv : (cell.values layout).length / layout.width = cell.stars.size := by
      rw [hvalues, Nat.mul_div_cancel _ hwidth]
    have hnumber := isNumber_natCast_iff.mpr ⟨hstored.count_lt, rfl⟩
    have hlength := isNumber_natCast_iff.mpr ⟨hstored.size_lt, rfl⟩
    refine .mk hnumber hlength (Int.natCast_nonneg _) (Int.natCast_nonneg _)
      ?_ ?_ ?_ ?_
    · exact Int.natCast_dvd_natCast.mpr ⟨cell.stars.size, by rw [hvalues, Nat.mul_comm]⟩
    · norm_cast
      rw [hdiv]
      exact hstored.stocked.room
    · norm_cast
      rw [hdiv]
      exact hstored.count
    · norm_cast
      exact length_valueBytes _

/-- The records of subtrees are just what is written for subtrees that may be
stored. -/
theorem isSubtree_iff (hwidth : 0 < layout.width) :
    IsSubtree layout.width capacity limit depth bytes ↔
      ∃ node : Node, node.Stored layout capacity (limit - depth) ∧
        bytes = node.encode layout := by
  constructor
  · intro h
    induction h with
    | leaf hcell =>
        obtain ⟨cell, hstored, rfl⟩ := (isCell_iff hwidth).mp hcell
        exact ⟨.leaf cell, Node.stored_leaf_iff.mpr hstored, rfl⟩
    | @inner depth _ _ hdepth hcell _ ih =>
        obtain ⟨cell, hstored, rfl⟩ := (isCell_iff hwidth).mp hcell
        choose children hchildren using ih
        refine ⟨.inner cell children, Node.stored_inner_iff.mpr
          ⟨Nat.sub_pos_of_lt hdepth, hstored, fun o => ?_⟩, ?_⟩
        · rw [Nat.sub_sub]
          exact (hchildren o).1
        · rw [Node.encode_inner]
          congr 1
          exact List.flatMap_congr fun o _ => (hchildren o).2
  · rintro ⟨node, hstored, rfl⟩
    induction node generalizing depth with
    | leaf cell =>
        exact .leaf ((isCell_iff hwidth).mpr
          ⟨cell, Node.stored_leaf_iff.mp hstored, rfl⟩)
    | inner cell children ih =>
        obtain ⟨hpos, hcell, hchildren⟩ := Node.stored_inner_iff.mp hstored
        refine .inner (Nat.lt_of_sub_pos hpos)
          ((isCell_iff hwidth).mpr ⟨cell, hcell, rfl⟩) fun o => ih o ?_
        rw [← Nat.sub_sub]
        exact hchildren o

end Archive

/-- Settings stay valid with another number of stars for a cell. -/
theorem Settings.validate_starsPerCell (settings : Settings)
    (h : settings.validate = .ok ()) {capacity : Nat} (hcapacity : 1 ≤ capacity) :
    ({ settings with starsPerCell := capacity } : Settings).validate =
      .ok () := by
  rw [validate] at h ⊢
  split at h
  · cases h
  · rename_i hreach
    rw [if_neg hreach, if_neg (Nat.ne_of_gt hcapacity)]

namespace Tree

variable {settings : Settings} {layout : Layout} {bytes : Bytes}

/-- Archives are just what is written for trees that may be stored. -/
theorem isArchive_iff (hsettings : settings.validate = .ok ())
    (hlayout : layout.validate = .ok ()) (hwidth : layout.width < 2 ^ 31) :
    IsArchive layout.width settings.depthLimit bytes ↔
      ∃ tree : Tree, tree.Archived ∧
        tree.settings =
          { settings with starsPerCell := tree.settings.starsPerCell } ∧
        tree.layout = layout ∧ bytes = tree.encode := by
  constructor
  · rintro ⟨hfirst, hsecond, hpos, hoctants⟩
    rename_i capacity first second octants
    let settings' := { settings with starsPerCell := capacity }
    have hvalid : Valid { settings := settings', layout } :=
      ⟨settings.validate_starsPerCell hsettings hpos, hlayout⟩
    simp only [Archive.isSubtree_iff hvalid.width_pos] at hoctants
    choose family hfamily using hoctants
    obtain ⟨hcapacity, rfl⟩ := Archive.isNumber_natCast_iff.mp hsecond
    obtain ⟨_, rfl⟩ := Archive.isNumber_natCast_iff.mp hfirst
    let begun : Tree := { settings := settings', layout, octants := family }
    refine ⟨{ begun with census := begun.recount },
      ⟨⟨hvalid.settings, hlayout⟩, Layout.signed_width_of_lt hwidth, hcapacity,
        fun o => (hfamily o).1, rfl, rfl, rfl⟩, rfl, rfl, ?_⟩
    rw [encode]
    congr 1
    exact List.flatMap_congr fun o _ => (hfamily o).2
  · rintro ⟨tree, harchived, hsettings, rfl, rfl⟩
    have hlimit : tree.settings.depthLimit = settings.depthLimit := by
      rw [hsettings]
    refine .mk (Archive.isNumber_natCast_iff.mpr ⟨hwidth, rfl⟩)
      (Archive.isNumber_natCast_iff.mpr ⟨harchived.capacity_lt, rfl⟩)
      harchived.valid.starsPerCell_pos fun o => ?_
    rw [Archive.isSubtree_iff harchived.valid.width_pos, ← hlimit]
    exact ⟨tree.octants o, harchived.octants o, rfl⟩

/-- An archive is read, whatever follows it, and written again. -/
theorem exists_decodeFront_of_isArchive (hsettings : settings.validate = .ok ())
    (hlayout : layout.validate = .ok ()) (hwidth : layout.width < 2 ^ 31)
    (harchive : IsArchive layout.width settings.depthLimit bytes)
    (rest : Bytes) :
    ∃ tree, decodeFront settings layout (bytes ++ rest) = .ok (tree, rest) ∧
      bytes = tree.encode := by
  obtain ⟨tree, harchived, hsame, hsame', rfl⟩ :=
    (isArchive_iff hsettings hlayout hwidth).mp harchive
  exact ⟨tree, decodeFront_eq_ok_iff.mpr ⟨harchived, hsame, hsame', rfl⟩, rfl⟩

/-- What has been read from the front of the bytes is an archive. -/
theorem isArchive_of_decodeFront (hsettings : settings.validate = .ok ())
    (hlayout : layout.validate = .ok ()) (hwidth : layout.width < 2 ^ 31)
    {tree : Tree} {rest : Bytes}
    (hfront : decodeFront settings layout bytes = .ok (tree, rest)) :
    bytes = tree.encode ++ rest ∧
      IsArchive layout.width settings.depthLimit tree.encode := by
  obtain ⟨harchived, hsame, hsame', hbytes⟩ := decodeFront_eq_ok_iff.mp hfront
  exact ⟨hbytes, (isArchive_iff hsettings hlayout hwidth).mpr
    ⟨tree, harchived, hsame, hsame', rfl⟩⟩

/-- The reader accepts just the bytes that begin with an archive.  This is what
it consumes, what is written for the tree that it returns, and the only archive
that the bytes begin with.  Whatever else follows it, the tree is the same. -/
theorem decode_format (hsettings : settings.validate = .ok ())
    (hlayout : layout.validate = .ok ()) (hwidth : layout.width < 2 ^ 31)
    (bytes : Bytes) :
    ((∃ tree, Tree.decode settings layout bytes = .ok tree) ↔
      ∃ archive rest, bytes = archive ++ rest ∧
        IsArchive layout.width settings.depthLimit archive) ∧
    ∀ tree, Tree.decode settings layout bytes = .ok tree →
      ∃ rest, decodeFront settings layout bytes = .ok (tree, rest) ∧
        bytes = tree.encode ++ rest ∧
        IsArchive layout.width settings.depthLimit tree.encode ∧
        (∀ archive other, bytes = archive ++ other →
          IsArchive layout.width settings.depthLimit archive →
            archive = tree.encode) ∧
        ∀ other, Tree.decode settings layout (tree.encode ++ other) =
          .ok tree := by
  have hread {archive : Bytes} := @exists_decodeFront_of_isArchive settings
    layout archive hsettings hlayout hwidth
  refine ⟨⟨?_, ?_⟩, ?_⟩
  · rintro ⟨tree, hdecode⟩
    obtain ⟨rest, hfront⟩ := decode_eq_ok_iff.mp hdecode
    exact ⟨tree.encode, rest,
      isArchive_of_decodeFront hsettings hlayout hwidth hfront⟩
  · rintro ⟨archive, rest, rfl, harchive⟩
    obtain ⟨tree, hfront, _⟩ := hread harchive rest
    exact ⟨tree, decode_eq_ok_iff.mpr ⟨rest, hfront⟩⟩
  · intro tree hdecode
    obtain ⟨rest, hfront⟩ := decode_eq_ok_iff.mp hdecode
    obtain ⟨hbytes, harchive⟩ :=
      isArchive_of_decodeFront hsettings hlayout hwidth hfront
    refine ⟨rest, hfront, hbytes, harchive, ?_, fun other => ?_⟩
    · rintro archive other rfl hother
      obtain ⟨tree', hfront', rfl⟩ := hread hother other
      cases hfront'.symm.trans hfront
      rfl
    · obtain ⟨harchived, hsame, hsame', _⟩ := decodeFront_eq_ok_iff.mp hfront
      exact decode_eq_ok_iff.mpr ⟨other,
        decodeFront_eq_ok_iff.mpr ⟨harchived, hsame, hsame', rfl⟩⟩

/-- A tree that a failed frame has left behind is an archive when it is
written, and one more byte does not belong to it. -/
theorem format_crowdedTwice :
    (∃ archive rest, crowdedTwice.encode ++ [7] = archive ++ rest ∧
      IsArchive 8 32 archive) ∧
    ∀ tree, Tree.decode crowdedSettings {} (crowdedTwice.encode ++ [7]) =
      .ok tree → IsArchive 8 32 tree.encode := by
  have hok : (Tree.decode crowdedSettings {}
      (crowdedTwice.encode ++ [7])).isOk = true := by
    decide +kernel
  obtain ⟨hiff, hformat⟩ := @decode_format crowdedSettings {} rfl rfl (by decide)
    (crowdedTwice.encode ++ [7])
  refine ⟨hiff.mp ?_, fun tree hdecode => ?_⟩
  · cases hdecode : Tree.decode crowdedSettings {}
        (crowdedTwice.encode ++ [7]) with
    | error fault => rw [hdecode] at hok; cases hok
    | ok tree => exact ⟨tree, rfl⟩
  · obtain ⟨_, _, _, harchive, _⟩ := hformat tree hdecode
    exact harchive

end Tree

end Starfield
