import Mathlib.Data.Multiset.MapFold
import Starfield.Proofs.Routes
import Starfield.Proofs.Shape

/-!
# The order of insertion

Two users insert the same stars, each in an order of their own.  They need not
end up with the same tree: when there are too many stars in one place, each keeps
the ones that came first, and samples depend on the order as well.  But as many
stars are refused, the trees have the same nodes with the same counts, and when
no star is refused every leaf holds the same stars.
-/

namespace Starfield

/-- The node without its stars: only their number is left. -/
def Entry.outline (entry : Entry) : Entry :=
  { entry with cell := { count := entry.cell.count } }

/-- The stars of a leaf in no order.  The sample of an inner node is left out. -/
def Entry.leafStars (entry : Entry) : Multiset Star :=
  if entry.isLeaf then ↑entry.cell.stars.toList else 0

namespace Node

variable {settings : Settings} {layout : Layout} {place : Place}
  {stars others : List Star} {node next : Node} {α : Type}

/-- Stars that go the same ways with the same labels are the same in every octant
as far as ways and labels tell. -/
theorem perm_starsOf {levels : Nat} (label : Star → α)
    (h : (stars.map fun star => (place.route (levels + 1) star, label star)).Perm
      (others.map fun star => (place.route (levels + 1) star, label star)))
    (o : Octant) :
    ((starsOf place stars o).map fun star =>
        ((place.child o).route levels star, label star)).Perm
      ((starsOf place others o).map fun star =>
        ((place.child o).route levels star, label star)) := by
  have hoctant (stars : List Star) :
      (starsOf place stars o).map (fun star =>
          ((place.child o).route levels star, label star)) =
        (((stars.map fun star =>
          (place.route (levels + 1) star, label star)).filter
            fun labelled => labelled.1.head? = some o).map
              fun labelled => (labelled.1.tail, labelled.2)) := by
    rw [List.filter_map, List.map_map, starsOf]
    simp only [Function.comp_def, Place.route, List.head?_cons, List.tail_cons,
      Option.some.injEq]
    refine List.map_congr_left fun star hstar => ?_
    rw [of_decide_eq_true (List.mem_filter.mp hstar).2]
  rw [hoctant, hoctant]
  exact (h.filter _).map _

theorem IsBatch.map_listing_eq (h : IsBatch settings layout place stars node)
    (hnext : IsBatch settings layout place others next) {levels : Nat}
    (hnode : node.Within levels) (label : Star → α)
    (hperm : (stars.map fun star => (place.route levels star, label star)).Perm
      (others.map fun star => (place.route levels star, label star)))
    (path : List Octant) :
    (next.listing path place).map
        (fun entry => (entry.outline, entry.leafStars.map label)) =
      (node.listing path place).map
        (fun entry => (entry.outline, entry.leafStars.map label)) := by
  have hlength : stars.length = others.length := by
    simpa using hperm.length_eq
  induction h generalizing others next levels path with
  | @leaf place stars hfits =>
      cases hnext with
      | inner hlong => omega
      | leaf =>
          have hlabels : (others.map label).Perm (stars.map label) := by
            simpa [Function.comp_def] using (hperm.map Prod.snd).symm
          have hstars : Multiset.map label (others : Multiset Star) =
              Multiset.map label (stars : Multiset Star) := by
            rw [Multiset.map_coe, Multiset.map_coe, Multiset.coe_eq_coe]
            exact hlabels
          simp only [listing, List.map_singleton, Entry.outline,
            Entry.leafStars, if_true, hlength, hstars]
  | @inner place stars children hlong _ ih =>
      cases hnext with
      | leaf hfits => omega
      | @inner _ _ others' _ hchildren =>
          obtain ⟨hpos, hbelow⟩ := hnode
          obtain ⟨below, rfl⟩ :=
            Nat.exists_eq_add_one_of_ne_zero (Nat.ne_of_gt hpos)
          simp only [listing, List.map_cons, List.map_flatMap, Entry.outline,
            Entry.leafStars, hlength]
          congr 1
          refine List.flatMap_congr fun o _ => ?_
          have hpart := perm_starsOf label hperm o
          exact ih o (hchildren o) (hbelow o) hpart _
            (by simpa using hpart.length_eq)

end Node

namespace Tree

variable {settings : Settings} {layout : Layout} {tree next : Tree}
  {stars others : List Star} {α : Type}

theorem Holds.map_listing_eq (h : tree.Holds stars) (hnext : next.Holds others)
    (hregular : tree.Regular) (hsettings : next.settings = tree.settings)
    (hlayout : next.layout = tree.layout) (label : Star → α)
    (hperm : (stars.map fun star => (tree.settings.route star, label star)).Perm
      (others.map fun star => (tree.settings.route star, label star))) :
    next.listing.map
        (fun entry => (entry.outline, entry.leafStars.map label)) =
      tree.listing.map
        (fun entry => (entry.outline, entry.leafStars.map label)) := by
  have hdomain : next.domain = tree.domain := by
    rw [domain, hsettings, domain]
  rw [route_eq] at hperm
  rw [listing, listing, List.map_flatMap, List.map_flatMap, hdomain]
  refine List.flatMap_congr fun o _ => ?_
  have hoctant := hnext o
  rw [hsettings, hlayout, hdomain] at hoctant
  exact (h o).map_listing_eq hoctant (hregular.within o) label
    (Node.perm_starsOf label hperm o) [o]

/-- The figures of a tree but for the stars can be read off the nodes without
their stars. -/
theorem census_eq_of_outline (htree : Reachable tree) (hnext : Reachable next)
    (houtline : next.listing.map Entry.outline =
      tree.listing.map Entry.outline)
    (hstars : next.census.stars = tree.census.stars) :
    next.census = tree.census := by
  have hsum (tree : Tree) : (tree.listing.map Entry.census).sum =
      ((tree.listing.map Entry.outline).map Entry.census).sum := by
    rw [List.map_map]
    rfl
  have hfigures {tree : Tree} (h : Reachable tree) : tree.census =
      { ((tree.listing.map Entry.outline).map Entry.census).sum with
        stars := tree.census.stars } := by
    rw [h.census_eq, recount_eq_sum, hsum]
  rw [hfigures hnext, hfigures htree, houtline, hstars]

/-- Whatever the order in which stars are inserted, as many are taken and as many
refused, and the trees have the same nodes and the same figures.  When no star is
refused the leaves hold the same stars. -/
structure OrderFree (tree : Tree) (stars others : List Star) : Prop where
  taken : (tree.feed others).2.length = (tree.feed stars).2.length
  refused : (tree.faults others).length = (tree.faults stars).length
  outline : (tree.feed others).1.listing.map Entry.outline =
    (tree.feed stars).1.listing.map Entry.outline
  census : (tree.feed others).1.census = (tree.feed stars).1.census
  leaves : tree.faults stars = [] →
    (tree.feed others).1.listing.map
        (fun entry => (entry.outline, entry.leafStars)) =
      (tree.feed stars).1.listing.map
        (fun entry => (entry.outline, entry.leafStars))

theorem feed_eq_self (hfaults : tree.faults stars = []) :
    (tree.feed stars).2 = stars := by
  have htotal := tree.length_feed_add_length_faults stars
  rw [hfaults] at htotal
  exact (tree.sublist_feed stars).eq_of_length htotal

/-- Of stars in two orders the same numbers are taken, way by way. -/
theorem perm_route_feed (hcreate : Tree.create settings layout = .ok tree)
    (hstars : ∀ star ∈ stars, star.length = layout.width)
    (h : stars.Perm others) :
    ((tree.feed stars).2.map settings.route).Perm
      ((tree.feed others).2.map settings.route) := by
  have hothers : ∀ star ∈ others, star.length = layout.width :=
    fun star hstar => hstars star (h.mem_iff.mpr hstar)
  rw [List.perm_iff_count]
  intro way
  rw [count_feed hcreate hstars, count_feed hcreate hothers,
    (h.map settings.route).count_eq]

/-- The trees have the same nodes as far as the ways and labels of the stars that
they have taken tell. -/
theorem map_listing_feed_eq (hcreate : Tree.create settings layout = .ok tree)
    (label : Star → α)
    (hperm : ((tree.feed stars).2.map fun star =>
        (settings.route star, label star)).Perm
      ((tree.feed others).2.map fun star =>
        (settings.route star, label star))) :
    (tree.feed others).1.listing.map
        (fun entry => (entry.outline, entry.leafStars.map label)) =
      (tree.feed stars).1.listing.map
        (fun entry => (entry.outline, entry.leafStars.map label)) := by
  have hregular :=
    ((Reachable.fresh (.created hcreate)).feed stars).regular
  obtain ⟨hsettings, hlayout, hstars⟩ := (holds_of_create hcreate).feed stars
  obtain ⟨hsettings', hlayout', hothers⟩ :=
    (holds_of_create hcreate).feed others
  obtain ⟨rfl, _⟩ := create_eq_ok hcreate
  refine hstars.map_listing_eq hothers hregular
    (hsettings'.trans hsettings.symm) (hlayout'.trans hlayout.symm) label ?_
  rw [hsettings]
  exact hperm

theorem orderFree_of_perm (hcreate : Tree.create settings layout = .ok tree)
    (hstars : ∀ star ∈ stars, star.length = layout.width)
    (h : stars.Perm others) : tree.OrderFree stars others := by
  have hroutes := perm_route_feed hcreate hstars h
  have htaken : (tree.feed others).2.length = (tree.feed stars).2.length := by
    simpa using hroutes.length_eq.symm
  have hrefused : (tree.faults others).length = (tree.faults stars).length := by
    have htotal := tree.length_feed_add_length_faults stars
    have htotal' := tree.length_feed_add_length_faults others
    have hlength := h.length_eq
    omega
  have houtline : (tree.feed others).1.listing.map Entry.outline =
      (tree.feed stars).1.listing.map Entry.outline := by
    -- Nothing but its way is known of a star.
    have hways : ((tree.feed stars).2.map fun star =>
          (settings.route star, ())).Perm
        ((tree.feed others).2.map fun star => (settings.route star, ())) := by
      simpa [Function.comp_def] using hroutes.map fun way => (way, ())
    have hlisting := congrArg (List.map Prod.fst)
      (map_listing_feed_eq hcreate (fun _ => ()) hways)
    simpa [Function.comp_def] using hlisting
  have hreachable (stars : List Star) : Reachable (tree.feed stars).1 :=
    (Reachable.fresh (.created hcreate)).feed stars
  have hcensus : (tree.feed others).1.census = (tree.feed stars).1.census := by
    refine census_eq_of_outline (hreachable stars) (hreachable others) houtline ?_
    obtain ⟨_, _, hfed, hcount⟩ := tree.exists_feed_eq stars
    obtain ⟨_, _, hfed', hcount'⟩ := tree.exists_feed_eq others
    rw [hfed, hfed', hcount, hcount', htaken]
  refine ⟨htaken, hrefused, houtline, hcensus, fun hfaults => ?_⟩
  have hfaults' : tree.faults others = [] := by
    rw [← List.length_eq_zero_iff, hrefused, hfaults]
    rfl
  have hall : ((tree.feed stars).2.map fun star =>
        (settings.route star, id star)).Perm
      ((tree.feed others).2.map fun star =>
        (settings.route star, id star)) := by
    rw [feed_eq_self hfaults, feed_eq_self hfaults']
    exact h.map _
  simpa using map_listing_feed_eq hcreate id hall

/-- Whether a star is refused depends on the stars taken before and not on the
nodes that they have left: it is refused exactly when so many of them as a cell
may hold go its way down to the depth limit.  So the order in which stars are
inserted does not matter for the shape of the tree. -/
theorem feed_any_order (hcreate : Tree.create settings layout = .ok tree)
    (hstars : ∀ star ∈ stars, star.length = layout.width) :
    (∀ star : Star, star.length = layout.width →
      let sharing := ((tree.feed stars).2.map settings.route).count
        (settings.route star)
      ((tree.feed stars).1.insert star =
          .error (.depthLimit settings.depthLimit) ↔
        sharing = settings.starsPerCell) ∧
      ((∃ next, (tree.feed stars).1.insert star = .ok next) ↔
        sharing < settings.starsPerCell)) ∧
    ∀ others, stars.Perm others → tree.OrderFree stars others := by
  refine ⟨fun star hstar => ?_, fun others => orderFree_of_perm hcreate hstars⟩
  have hregular :=
    ((Reachable.fresh (.created hcreate)).feed stars).regular
  have hroom : ((tree.feed stars).2.map settings.route).count
      (settings.route star) ≤ settings.starsPerCell := by
    rw [count_feed hcreate hstars]
    exact Nat.min_le_left _ _
  obtain ⟨hsettings, hlayout, hholds⟩ := (holds_of_create hcreate).feed stars
  obtain ⟨rfl, _⟩ := create_eq_ok hcreate
  have hwidth := hstar.trans (congrArg Layout.width hlayout.symm)
  have hrefused := hholds.insert_eq_error_iff hregular hwidth
  have htaken := exists_insert_eq_ok_iff hwidth
  rw [hsettings, List.nil_append] at hrefused
  rw [hsettings, Ne, hrefused, Nat.not_le] at htaken
  exact ⟨hrefused.trans (Nat.le_antisymm_iff.trans (and_iff_right hroom)).symm,
    htaken⟩

def centerStar (color : Value) : Star :=
  List.replicate 3 .zero ++ [color] ++ List.replicate 4 .zero

/-- Two stars share a place and a third one does not.  When cells may hold one
star only, the one of the two that comes first is taken. -/
theorem feed_any_order_center :
    let tree : Tree := { settings := { starsPerCell := 1 }, layout := {} }
    let stars := [centerStar ⟨1⟩, centerStar ⟨2⟩, diagonalStar ⟨0x41100000⟩]
    let others := [centerStar ⟨2⟩, diagonalStar ⟨0x41100000⟩, centerStar ⟨1⟩]
    (tree.feed stars).2 = [centerStar ⟨1⟩, diagonalStar ⟨0x41100000⟩] ∧
      (tree.feed others).2 = [centerStar ⟨2⟩, diagonalStar ⟨0x41100000⟩] ∧
      (tree.feed stars).1.insert (centerStar ⟨3⟩) = .error (.depthLimit 32) ∧
      tree.OrderFree stars others := by
  intro tree stars others
  obtain ⟨hrefused, horder⟩ := @feed_any_order { starsPerCell := 1 } {} tree
    stars rfl (by decide)
  exact ⟨by decide +kernel, by decide +kernel,
    (hrefused (centerStar ⟨3⟩) rfl).1.mpr (by decide +kernel),
    horder others (by decide)⟩

end Tree

end Starfield
