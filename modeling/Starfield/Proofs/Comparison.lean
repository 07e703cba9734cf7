import Starfield.Proofs.Shortage

/-!
# Views compared

A view may see more of a tree than another one, or find more of its nodes small
enough to be drawn as a sample.  The frames for the two views start from whatever
was drawn before, and each may skip most of the tree.  Still what they draw
compares as the views do: who sees more draws more, and who finds more small
draws the same part of the tree by fewer nodes.
-/

namespace Starfield

namespace View

/-- The second view sees all listed nodes that the first one sees, and the same
ones are small for both. -/
structure Widens (settings : Settings) (entries : List Entry)
    (view wider : View) : Prop where
  sees : ∀ entry ∈ entries, view.seesPlace settings entry.place = true →
    wider.seesPlace settings entry.place = true
  small : ∀ entry ∈ entries,
    wider.isSmall settings entry.place = view.isSmall settings entry.place

/-- Both views see the same of the listed nodes, and all inner ones that are small
for the first view are small for the second one. -/
structure Coarsens (settings : Settings) (entries : List Entry)
    (view coarser : View) : Prop where
  sees : ∀ entry ∈ entries, coarser.seesPlace settings entry.place =
    view.seesPlace settings entry.place
  small : ∀ entry ∈ entries, entry.isLeaf = false →
    view.isSmall settings entry.place = true →
      coarser.isSmall settings entry.place = true

variable {settings : Settings} {entries fewer : List Entry}
  {view wider coarser : View}

theorem Widens.mono (h : view.Widens settings entries wider)
    (hfewer : fewer ⊆ entries) : view.Widens settings fewer wider :=
  ⟨fun entry hentry => h.sees entry (hfewer hentry),
    fun entry hentry => h.small entry (hfewer hentry)⟩

theorem Coarsens.mono (h : view.Coarsens settings entries coarser)
    (hfewer : fewer ⊆ entries) : view.Coarsens settings fewer coarser :=
  ⟨fun entry hentry => h.sees entry (hfewer hentry),
    fun entry hentry => h.small entry (hfewer hentry)⟩

end View

namespace Node

variable {settings : Settings} {view wider coarser : View} {node : Node}
  {path : List Octant} {place : Place}

theorem listing_child_subset (cell : Cell) (children : Octant → Node)
    (path : List Octant) (place : Place) (o : Octant) :
    (children o).listing (path ++ [o]) (place.child o) ⊆
      (inner cell children).listing path place := by
  intro entry hentry
  exact List.mem_cons_of_mem _
    (List.mem_flatMap.mpr ⟨o, Octant.mem_all o, hentry⟩)

/-- Every node that is drawn for a view is drawn alike for a wider one. -/
theorem cut_subset_of_widens
    (h : view.Widens settings (node.listing path place) wider) :
    node.cut settings view path place ⊆ node.cut settings wider path place := by
  induction node generalizing path place with
  | leaf cell =>
      have hsees := h.sees _ (List.mem_singleton_self _)
      simp only [cut]
      split
      · rename_i hdrawn
        rw [if_pos ⟨hsees hdrawn.1, hdrawn.2⟩]
        exact List.Subset.refl _
      · exact List.nil_subset _
  | inner cell children ih =>
      have hsees := h.sees _ List.mem_cons_self
      have hsmall := h.small _ List.mem_cons_self
      simp only at hsees hsmall
      simp only [cut, hsmall]
      split
      · rename_i hseen
        rw [if_pos (hsees hseen)]
        split
        · exact List.Subset.refl _
        · intro drawing hdrawing
          obtain ⟨o, ho, hbelow⟩ := List.mem_flatMap.mp hdrawing
          have hchild := h.mono
            (listing_child_subset cell children path place o)
          exact List.mem_flatMap.mpr ⟨o, ho, ih o hchild hbelow⟩
      · exact List.nil_subset _

/-- What is drawn of a subtree lies in it. -/
theorem prefix_of_mem_cut {drawing : Drawing}
    (h : drawing ∈ node.cut settings view path place) :
    path <+: drawing.path := by
  induction node generalizing path place with
  | leaf cell =>
      simp only [cut] at h
      split at h
      · rw [List.mem_singleton.mp h]
      · exact absurd h List.not_mem_nil
  | inner cell children ih =>
      simp only [cut] at h
      split at h
      · split at h
        · rw [List.mem_singleton.mp h]
        · obtain ⟨o, _, hbelow⟩ := List.mem_flatMap.mp h
          exact (List.prefix_append path [o]).trans (ih o hbelow)
      · exact absurd h List.not_mem_nil

/-- Every node that is drawn for a view is drawn for a coarser one too, or a node
above it is. -/
theorem exists_above_of_coarsens
    (h : view.Coarsens settings (node.listing path place) coarser)
    {drawing : Drawing} (hdrawing : drawing ∈ node.cut settings view path place) :
    ∃ above ∈ node.cut settings coarser path place,
      above.path <+: drawing.path := by
  induction node generalizing path place with
  | leaf cell =>
      have hsees := h.sees _ (List.mem_singleton_self _)
      simp only at hsees
      refine ⟨drawing, ?_, List.prefix_rfl⟩
      rwa [cut, hsees]
  | inner cell children ih =>
      have hsees := h.sees _ List.mem_cons_self
      have hsmall := h.small _ List.mem_cons_self rfl
      simp only at hsees hsmall
      have hpath := prefix_of_mem_cut hdrawing
      simp only [cut] at hdrawing ⊢
      rw [hsees]
      by_cases hseen : view.seesPlace settings place = true
      · rw [if_pos hseen] at hdrawing ⊢
        by_cases hsample : 0 < cell.stars.size ∧
            coarser.isSmall settings place = true
        · -- The coarser view stops here, and all that is drawn lies below.
          rw [if_pos hsample]
          exact ⟨_, List.mem_singleton_self _, hpath⟩
        · have hfine : ¬(0 < cell.stars.size ∧
              view.isSmall settings place = true) :=
            fun hfine => hsample ⟨hfine.1, hsmall hfine.2⟩
          rw [if_neg hfine] at hdrawing
          rw [if_neg hsample]
          obtain ⟨o, ho, hbelow⟩ := List.mem_flatMap.mp hdrawing
          obtain ⟨above, habove, hprefix⟩ := ih o
            (h.mono (listing_child_subset cell children path place o)) hbelow
          exact ⟨above, List.mem_flatMap.mpr ⟨o, ho, habove⟩, hprefix⟩
      · rw [if_neg hseen] at hdrawing
        exact absurd hdrawing List.not_mem_nil

end Node

namespace Tree

variable {tree other : Tree} {view wider coarser : View} {path : List Octant}

theorem listing_octant_subset (tree : Tree) (o : Octant) :
    (tree.octants o).listing [o] (tree.domain.child o) ⊆ tree.listing :=
  fun _ hentry => List.mem_flatMap.mpr ⟨o, Octant.mem_all o, hentry⟩

theorem cut_subset_of_widens
    (h : view.Widens tree.settings tree.listing wider) :
    tree.cut view ⊆ tree.cut wider := by
  intro drawing hdrawing
  obtain ⟨o, ho, hbelow⟩ := List.mem_flatMap.mp hdrawing
  exact List.mem_flatMap.mpr ⟨o, ho,
    Node.cut_subset_of_widens (h.mono (tree.listing_octant_subset o)) hbelow⟩

theorem exists_above_of_coarsens
    (h : view.Coarsens tree.settings tree.listing coarser) {drawing : Drawing}
    (hdrawing : drawing ∈ tree.cut view) :
    ∃ above ∈ tree.cut coarser, above.path <+: drawing.path := by
  obtain ⟨o, ho, hbelow⟩ := List.mem_flatMap.mp hdrawing
  obtain ⟨above, habove, hprefix⟩ := Node.exists_above_of_coarsens
    (h.mono (tree.listing_octant_subset o)) hbelow
  exact ⟨above, List.mem_flatMap.mpr ⟨o, ho, habove⟩, hprefix⟩

/-- The nodes that hold slots are those with a drawing. -/
theorem mem_holders_iff_drawings :
    path ∈ tree.holders ↔ ∃ drawing ∈ tree.drawings, drawing.path = path := by
  simp only [holders, residents, drawings, List.mem_toFinset, List.mem_map,
    List.mem_filter, List.mem_filterMap]
  constructor
  · rintro ⟨entry, ⟨hentry, hresident⟩, rfl⟩
    obtain ⟨tenancy, htenancy⟩ := Option.isSome_iff_exists.mp hresident
    refine ⟨⟨entry.path, tenancy.stars, tenancy.sampled⟩,
      ⟨entry, hentry, ?_⟩, rfl⟩
    rw [Entry.drawing?, htenancy]
    rfl
  · rintro ⟨drawing, ⟨entry, hentry, hdrawing⟩, rfl⟩
    obtain ⟨tenancy, htenancy, rfl⟩ := Option.map_eq_some_iff.mp hdrawing
    refine ⟨entry, ⟨hentry, ?_⟩, rfl⟩
    rw [Entry.isResident, htenancy]
    rfl

/-- Of two nodes that hold slots above one node, neither lies below the other,
so they are the same. -/
theorem Unnested.eq_of_prefix (htree : tree.Unnested) {above below : List Octant}
    (habove : above ∈ tree.holders) (hbelow : below ∈ tree.holders)
    (hpath : above <+: path) (hpath' : below <+: path) : above = below := by
  rw [holders, List.mem_toFinset] at habove hbelow
  obtain ⟨entry, hentry, rfl⟩ := List.mem_map.mp habove
  obtain ⟨other, hother, rfl⟩ := List.mem_map.mp hbelow
  rcases List.prefix_or_prefix_of_prefix hpath hpath' with hprefix | hprefix
  · rw [htree.eq_of_path hentry hother hprefix]
  · rw [htree.eq_of_path hother hentry hprefix]

/-- Frames for two views of the same nodes, whatever slots these held before.  If
the second view is wider, it draws all that the first one draws; if it is
coarser, every node drawn for the first view is covered by exactly one node drawn
for the second one, itself or a node above it. -/
theorem Reachable.drawn_compare (htree : Reachable tree)
    (hother : Reachable other) (hsame : tree.SameContent other)
    (view view' : View) (detail detail' : Detail) (time time' : Option Nat)
    {update update' : Update}
    (hframe : (tree.runFrame view.oracle detail time).outcome = .ok update)
    (hframe' :
      (other.runFrame view'.oracle detail' time').outcome = .ok update') :
    let drawn := (tree.runFrame view.oracle detail time).tree.holders
    let drawn' := (other.runFrame view'.oracle detail' time').tree.holders
    (view.Widens tree.settings tree.listing view' → drawn ⊆ drawn') ∧
      (view.Coarsens tree.settings tree.listing view' →
        ∀ path ∈ drawn, ∃! above, above ∈ drawn' ∧ above <+: path) := by
  intro drawn drawn'
  have hcut := (drawings_runFrame htree.unnested hframe).1
  have hcut' := (drawings_runFrame hother.unnested hframe').1
  rw [hsame.cut_eq] at hcut'
  have hdrawn : ∀ path, path ∈ drawn ↔
      ∃ drawing ∈ tree.cut view, drawing.path = path := fun path => by
    rw [← hcut]
    exact mem_holders_iff_drawings
  have hdrawn' : ∀ path, path ∈ drawn' ↔
      ∃ drawing ∈ tree.cut view', drawing.path = path := fun path => by
    rw [← hcut']
    exact mem_holders_iff_drawings
  refine ⟨fun hwidens path hpath => ?_, fun hcoarsens path hpath => ?_⟩
  · obtain ⟨drawing, hdrawing, rfl⟩ := (hdrawn path).mp hpath
    exact (hdrawn' _).mpr
      ⟨drawing, cut_subset_of_widens hwidens hdrawing, rfl⟩
  · obtain ⟨drawing, hdrawing, rfl⟩ := (hdrawn path).mp hpath
    obtain ⟨above, habove, hprefix⟩ :=
      exists_above_of_coarsens hcoarsens hdrawing
    have hmem : above.path ∈ drawn' := (hdrawn' _).mpr ⟨above, habove, rfl⟩
    refine ⟨above.path, ⟨hmem, hprefix⟩, ?_⟩
    rintro another ⟨hanother, hanother'⟩
    exact (hother.act (.runFrame view'.oracle detail' time')).unnested.eq_of_prefix
      hanother hmem hanother' hprefix

/-! ## A pair of stars -/

theorem Managed.exists_ok_of_nodes_le (h : Managed tree false)
    (hfits : tree.census.nodes ≤ tree.slots.capacity) (oracle : Oracle)
    (detail : Detail) (time : Option Nat) :
    ∃ update, (tree.runFrame oracle detail time).outcome = .ok update := by
  have howned : tree.Owned false := h.balanced.owns h.reachable.unnested
  exact exists_runFrame_ok h.reachable.unnested time
    (h.reachable.done_of_nodes_le howned.accounts hfits oracle detail)

/-- One star fills a leaf, and every inner node keeps a sample. -/
def sampledSettings : Settings :=
  { starsPerCell := 1, firstSampleDepth := 0, compaction := .never }

/-- Two stars share an octant, so the node there has a sample.  The buffer has a
slot for every node. -/
def paired : Tree :=
  Tree.run { settings := sampledSettings, layout := {} }
    [.insert (cornerStar (.ofIndex 7)), .insert farStar, .resizeBuffer 16]

/-- The same when only the sample has been drawn. -/
def pairedOnce : Tree :=
  paired.act (.runFrame openView.oracle .positions none)

/-- A view that sees everything at a size that no sample is good enough for. -/
def closeView : View := { sees := fun _ => true, pixels := fun _ => (10, 10) }

/-- The same for what reaches beyond the middle of the domain only. -/
def westView : View :=
  { sees := fun corners => (corners (.ofIndex 7)).x < 0
    pixels := fun _ => (10, 10) }

theorem managed_paired : Managed paired false :=
  ((Managed.fresh (@Fresh.created sampledSettings {} _ rfl)).insert _ |>.insert
    _).resizeBuffer 16

theorem managed_pairedOnce : Managed pairedOnce false := by
  have hstalls : paired.stalls openView.oracle .positions = false := by
    decide +kernel
  exact hstalls ▸ managed_paired.runFrame openView.oracle .positions none

/-- The view of one side draws nothing that the view of everything does not draw
as well.  From close up both stars are drawn and from far off the sample, which
covers each of them. -/
theorem drawn_compare_paired :
    (paired.runFrame westView.oracle .positions none).tree.holders ⊆
        (pairedOnce.runFrame closeView.oracle .positions none).tree.holders ∧
      (paired.runFrame closeView.oracle .positions none).tree.holders =
        {[.ofIndex 7, .ofIndex 0], [.ofIndex 7, .ofIndex 7]} ∧
      (pairedOnce.runFrame openView.oracle .positions none).tree.holders =
        {[.ofIndex 7]} ∧
      ∀ path ∈ (paired.runFrame closeView.oracle .positions none).tree.holders,
        ∃! above, above ∈ (pairedOnce.runFrame openView.oracle .positions
          none).tree.holders ∧ above <+: path := by
  have hsame : paired.SameContent pairedOnce :=
    paired.sameContent_runFrame openView.oracle .positions none
  have hfits : paired.census.nodes ≤ paired.slots.capacity := by decide +kernel
  have hfits' : pairedOnce.census.nodes ≤ pairedOnce.slots.capacity := by
    decide +kernel
  obtain ⟨_, hwest⟩ := managed_paired.exists_ok_of_nodes_le hfits
    westView.oracle .positions none
  obtain ⟨_, hclose⟩ := managed_paired.exists_ok_of_nodes_le hfits
    closeView.oracle .positions none
  obtain ⟨_, hclose'⟩ := managed_pairedOnce.exists_ok_of_nodes_le hfits'
    closeView.oracle .positions none
  obtain ⟨_, hopen⟩ := managed_pairedOnce.exists_ok_of_nodes_le hfits'
    openView.oracle .positions none
  have hsmall : ∀ entry ∈ paired.listing, entry.isLeaf = false →
      closeView.isSmall paired.settings entry.place = true →
        openView.isSmall paired.settings entry.place = true := by
    decide +kernel
  refine ⟨?_, by decide +kernel, by decide +kernel, ?_⟩
  · exact (Reachable.drawn_compare managed_paired.reachable
      managed_pairedOnce.reachable hsame westView closeView
      .positions .positions none none hwest hclose').1
      ⟨fun _ _ _ => rfl, fun _ _ => rfl⟩
  · exact (Reachable.drawn_compare managed_paired.reachable
      managed_pairedOnce.reachable hsame closeView openView
      .positions .positions none none hclose hopen).2
      ⟨fun _ _ => rfl, hsmall⟩

end Tree

end Starfield
