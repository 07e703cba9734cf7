import Starfield.Proofs.Archive.Records
import Starfield.Proofs.Occupancy

/-!
# Trees read from bytes

Reading a tree succeeds exactly when the bytes begin with what is written for a
tree that may be stored, and this tree is what is read.  The header brings the
number of stars a cell may hold; everything else about the settings is given.
-/

namespace Starfield

/-- Numbers that are equal up to multiples of a word with a sign have the same
lowest thirty-two bits. -/
theorem mod_of_bmod {n : Nat} {m : Int} (h : m = (n : Int).bmod (1 <<< 64)) :
    m % (2 ^ 32 : Nat) = ((n % 2 ^ 32 : Nat) : Int) := by
  have hdvd : ((2 ^ 32 : Nat) : Int) ∣ ((1 <<< 64 : Nat) : Int) := by decide
  rw [h, Int.natCast_emod, ← Int.emod_emod_of_dvd _ hdvd, Int.bmod_emod,
    Int.emod_emod_of_dvd _ hdvd]

/-- A header is compared with the width of the given layout.  Just one word
passes, and only if it is read as that width. -/
theorem Layout.takeNumber_eq_ok_signedWidth_iff (layout : Layout)
    {bytes rest : Bytes} :
    Archive.takeNumber bytes = .ok (layout.signedWidth, rest) ↔
      signed layout.width.toUInt32 = layout.signedWidth ∧
        bytes = wordBytes layout.width.toUInt32 ++ rest := by
  rw [Archive.takeNumber_eq_ok_iff]
  constructor
  · rintro ⟨word, hsigned, hbytes⟩
    have hword : word = layout.width.toUInt32 := by
      have hlt := word.toNat_lt
      have hmod := mod_of_bmod (n := layout.width) hsigned
      rw [signed_eq_ite] at hmod
      rw [← UInt32.toNat_inj]
      change word.toNat = layout.width % 2 ^ 32
      omega
    rw [← hword]
    exact ⟨hsigned, hbytes⟩
  · rintro ⟨hsigned, hbytes⟩
    exact ⟨_, hsigned, hbytes⟩

theorem Layout.signed_width_of_lt {layout : Layout}
    (h : layout.width < 2 ^ 31) :
    signed layout.width.toUInt32 = layout.signedWidth := by
  rw [Layout.signedWidth_of_lt (by omega)]
  exact signed_eq_natCast_iff.mpr ⟨h, rfl⟩

namespace Tree

/-- The tree stored at the front of the bytes, and the bytes behind it. -/
def decodeFront (settings : Settings) (layout : Layout) (bytes : Bytes) :
    Except Fault (Tree × Bytes) := do
  let (width, bytes) ← Archive.takeNumber bytes
  if width ≠ layout.signedWidth then
    throw (.widthMismatch layout.width width)
  let (capacity, bytes) ← Archive.takeNumber bytes
  if capacity ≤ 0 then
    throw (.corrupt (.capacity capacity))
  let tree ← Tree.create { settings with starsPerCell := capacity.toNat } layout
  let depth := tree.domain.depth + 1
  let (octants, bytes) ←
    Octet.thread?
      (fun _ => Archive.takeNode tree.settings layout
        (settings.depthLimit - depth) depth) bytes
  let tree := tree.withOctants octants
  return ({ tree with census := tree.recount }, bytes)

variable {settings : Settings} {layout : Layout} {tree : Tree}
  {bytes rest : Bytes}

/-- Reading a tree is reading it from the front of the bytes. -/
theorem decode_eq_map_decodeFront (settings : Settings) (layout : Layout)
    (bytes : Bytes) :
    Tree.decode settings layout bytes =
      (decodeFront settings layout bytes).map Prod.fst := by
  rw [decode, decodeFront]
  cases Archive.takeNumber bytes with
  | error fault => rfl
  | ok width =>
  change (if _ then _ else _) = Except.map _ (if _ then _ else _)
  split
  · rfl
  cases Archive.takeNumber width.2 with
  | error fault => rfl
  | ok capacity =>
  change (if _ then _ else _) = Except.map _ (if _ then _ else _)
  split
  · rfl
  change Except.bind _ _ = Except.map _ (Except.bind _ _)
  cases Tree.create { settings with starsPerCell := capacity.1.toNat } layout with
  | error fault => rfl
  | ok tree =>
  change Except.bind (Octet.thread? _ _) _ =
    Except.map _ (Except.bind (Octet.thread? _ _) _)
  cases Octet.thread? (fun _ => Archive.takeNode tree.settings layout
      (settings.depthLimit - (tree.domain.depth + 1)) (tree.domain.depth + 1))
      capacity.2 with
  | error fault => rfl
  | ok octants => rfl

theorem decode_eq_ok_iff :
    Tree.decode settings layout bytes = .ok tree ↔
      ∃ rest, decodeFront settings layout bytes = .ok (tree, rest) := by
  rw [decode_eq_map_decodeFront]
  cases decodeFront settings layout bytes with
  | error fault => exact ⟨nofun, nofun⟩
  | ok front =>
      obtain ⟨front, rest⟩ := front
      simp [Except.map]

structure Archived (tree : Tree) : Prop where
  valid : tree.Valid
  width : signed tree.layout.width.toUInt32 = tree.layout.signedWidth
  capacity_lt : tree.settings.starsPerCell < 2 ^ 31
  octants : ∀ o, (tree.octants o).Stored tree.layout
    tree.settings.starsPerCell (tree.settings.depthLimit - 1)
  slots : tree.slots = {}
  census : tree.census = tree.recount
  log : tree.log = {}

theorem create_eq_ok_of_valid (h : tree.Valid) :
    Tree.create tree.settings tree.layout =
      .ok { settings := tree.settings, layout := tree.layout } := by
  rw [create, h.settings, h.layout]
  rfl

/-- The reader of the octants accepts just what is written for octants that may
be stored. -/
theorem thread?_takeNode_eq_ok_iff (hwidth : 0 < layout.width)
    {octants : Octet Node} {levels depth : Nat} :
    Octet.thread? (fun _ => Archive.takeNode settings layout levels depth)
        bytes = .ok (octants, rest) ↔
      (∀ o, (octants.get o).Stored layout settings.starsPerCell levels) ∧
        bytes = (Octant.all.flatMap fun o => (octants.get o).encode layout) ++
          rest :=
  @Octet.thread?_eq_ok_iff _ _ _
    (fun _ => Node.Stored layout settings.starsPerCell levels)
    (fun _ => Node.encode layout)
    (fun _ => Archive.takeNode settings layout levels depth) octants bytes rest
    fun _ _ _ _ => Archive.takeNode_eq_ok_iff hwidth

theorem archived_of_decodeFront
    (h : decodeFront settings layout bytes = .ok (tree, rest)) :
    tree.Archived ∧
      tree.settings =
        { settings with starsPerCell := tree.settings.starsPerCell } ∧
      tree.layout = layout ∧ bytes = tree.encode ++ rest := by
  rw [decodeFront] at h
  obtain ⟨⟨width, bytes₁⟩, hwidth, h⟩ := ok_of_bind h
  obtain ⟨hsame, h⟩ := ok_of_check h
  obtain ⟨⟨capacity, bytes₂⟩, hcapacity, h⟩ := ok_of_bind h
  obtain ⟨hpos, h⟩ := ok_of_check h
  obtain ⟨begun, hbegun, h⟩ := ok_of_bind h
  obtain ⟨⟨octants, bytes₃⟩, hoctants, h⟩ := ok_of_bind h
  obtain ⟨rfl, hvalid⟩ := create_eq_ok hbegun
  cases h
  obtain ⟨stars, rfl⟩ := Int.eq_ofNat_of_zero_le
    (Int.le_of_lt (Int.not_le.mp hpos))
  rw [Decidable.not_not.mp hsame, layout.takeNumber_eq_ok_signedWidth_iff]
    at hwidth
  rw [Archive.takeNumber_eq_ok_natCast_iff] at hcapacity
  obtain ⟨hstored, hrecords⟩ :=
    (thread?_takeNode_eq_ok_iff hvalid.width_pos).mp hoctants
  refine ⟨⟨⟨hvalid.settings, hvalid.layout⟩, hwidth.1, hcapacity.1, hstored,
    rfl, rfl, rfl⟩, rfl, rfl, ?_⟩
  rw [hwidth.2, hcapacity.2, hrecords]
  simp only [encode, withOctants, List.append_assoc]
  rfl

/-- What is written for a stored tree is read back, whatever follows. -/
theorem Archived.decodeFront_encode_append (h : tree.Archived)
    (hsettings : tree.settings =
      { settings with starsPerCell := tree.settings.starsPerCell })
    (rest : Bytes) :
    decodeFront settings tree.layout (tree.encode ++ rest) =
      .ok (tree, rest) := by
  have hpos := h.valid.starsPerCell_pos
  have hlimit : settings.depthLimit = tree.settings.depthLimit := by
    rw [hsettings]
  rw [encode, List.append_assoc, List.append_assoc, decodeFront]
  refine bind_eq_ok_iff.mpr ⟨(tree.layout.signedWidth, _),
    tree.layout.takeNumber_eq_ok_signedWidth_iff.mpr ⟨h.width, rfl⟩, ?_⟩
  refine check_eq_ok_iff.mpr ⟨fun hne => hne rfl, ?_⟩
  refine bind_eq_ok_iff.mpr ⟨(tree.settings.starsPerCell, _),
    Archive.takeNumber_eq_ok_natCast_iff.mpr ⟨h.capacity_lt, rfl⟩, ?_⟩
  refine check_eq_ok_iff.mpr ⟨by omega, ?_⟩
  rw [Int.toNat_natCast, ← hsettings, create_eq_ok_of_valid h.valid, hlimit]
  refine bind_eq_ok_iff.mpr ⟨_, rfl, ?_⟩
  refine bind_eq_ok_iff.mpr ⟨(.ofFamily tree.octants, rest),
    (thread?_takeNode_eq_ok_iff h.valid.width_pos).mpr ?_, ?_⟩
  · rw [Octet.get_ofFamily]
    exact ⟨h.octants, rfl⟩
  · obtain ⟨settings', layout', octants, slots, census, log⟩ := tree
    obtain rfl := h.slots
    obtain rfl := h.log
    simp only [withOctants, Octet.get_ofFamily]
    exact congrArg (fun census => Except.ok
      (({ settings := settings', layout := layout', octants, census } : Tree),
        rest)) h.census.symm

/-- The reader accepts just what is written for trees that may be stored. -/
theorem decodeFront_eq_ok_iff :
    decodeFront settings layout bytes = .ok (tree, rest) ↔
      tree.Archived ∧
        tree.settings =
          { settings with starsPerCell := tree.settings.starsPerCell } ∧
        tree.layout = layout ∧ bytes = tree.encode ++ rest := by
  refine ⟨archived_of_decodeFront, ?_⟩
  rintro ⟨harchived, hsettings, rfl, rfl⟩
  exact harchived.decodeFront_encode_append hsettings rest

end Tree

end Starfield
