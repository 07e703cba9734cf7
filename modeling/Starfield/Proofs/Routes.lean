import Starfield.Proofs.Feeding

/-!
# Which stars are refused

A star goes through the same octants whatever the tree looks like.  It is refused
exactly when as many stars as a cell may hold have been taken that go the same
way down to the depth limit.  So when stars are inserted in order, just the first
ones of every way are taken, and how many are taken of a way does not depend on
the order.
-/

namespace Starfield

/-! ## Ways down -/

/-- The octants that a star goes through below a place, so many levels down. -/
def Place.route : (levels : Nat) → Place → Star → List Octant
  | 0, _, _ => []
  | levels + 1, place, star =>
    let target := place.cube.octantOf star.point
    target :: route levels (place.child target) star

/-- The octants that a star goes through down to the depth limit.  The domain is
split whatever the limit is. -/
def Settings.route (settings : Settings) (star : Star) : List Octant :=
  (Place.domain settings.reach).route (max 1 settings.depthLimit) star

namespace Node

variable {settings : Settings} {layout : Layout} {star : Star} {place : Place}
  {stars : List Star} {node : Node}

/-- The stars that go the same way from a place are those of the same octant that
go the same way from there. -/
theorem count_route_succ (levels : Nat) (place : Place) (stars : List Star)
    (star : Star) :
    (stars.map (place.route (levels + 1))).count
        (place.route (levels + 1) star) =
      ((starsOf place stars (place.cube.octantOf star.point)).map
        ((place.child (place.cube.octantOf star.point)).route levels)).count
          ((place.child (place.cube.octantOf star.point)).route levels star) := by
  rw [List.count_eq_countP, List.count_eq_countP, List.countP_map,
    List.countP_map, starsOf, List.countP_filter]
  refine List.countP_congr fun other _ => ?_
  simp only [Function.comp_apply, Place.route, Bool.and_eq_true, beq_iff_eq,
    List.cons.injEq, decide_eq_true_eq]
  constructor
  · rintro ⟨htarget, hroute⟩
    rw [htarget] at hroute
    exact ⟨hroute, htarget⟩
  · rintro ⟨hroute, htarget⟩
    rw [htarget]
    exact ⟨rfl, hroute⟩

theorem count_route_le (levels : Nat) (place : Place) (stars : List Star)
    (star : Star) :
    (stars.map (place.route levels)).count (place.route levels star) ≤
      stars.length := by
  rw [← @List.length_map _ _ stars (place.route levels)]
  exact List.count_le_length

/-- A leaf that may be split so many levels down refuses a star when it holds as
many stars that go the same way as a cell may hold. -/
theorem grow?_eq_none_iff {levels : Nat} :
    (Cell.ofStars stars.toArray).grow? settings layout star levels place =
        none ↔
      settings.starsPerCell ≤
        (stars.map (place.route levels)).count (place.route levels star) := by
  have hsize (stars : List Star) :
      (Cell.ofStars stars.toArray).count = stars.length := List.size_toArray
  induction levels generalizing place stars with
  | zero =>
      have hall : (stars.map (place.route 0)).count (place.route 0 star) =
          stars.length := by
        rw [List.count_eq_length.mpr, List.length_map]
        intro way hway
        obtain ⟨_, _, rfl⟩ := List.mem_map.mp hway
        rfl
      rw [Cell.grow?, hsize, hall]
      split
      · exact iff_of_false (Option.some_ne_none _) (by omega)
      · exact iff_of_true rfl (by omega)
  | succ levels ih =>
      rw [Cell.grow?, hsize]
      split
      · have hle := count_route_le (levels + 1) place stars star
        exact iff_of_false (Option.some_ne_none _) (by omega)
      · rw [Option.map_eq_none_iff, count_route_succ]
        change (Cell.ofStars (place.cube.part stars.toArray _)).grow?
          settings layout star levels _ = none ↔ _
        rw [part_toArray]
        exact ih

/-- A subtree refuses a star when as many of its stars as a cell may hold go the
same way down to the depth limit. -/
theorem IsBatch.insert?_eq_none_iff
    (h : IsBatch settings layout place stars node) {levels : Nat}
    (hlevels : settings.depthLimit - place.depth = levels)
    (hnode : node.Within levels) :
    node.insert? settings layout star place = none ↔
      settings.starsPerCell ≤
        (stars.map (place.route levels)).count (place.route levels star) := by
  induction h generalizing levels with
  | leaf =>
      rw [insert?, hlevels]
      exact grow?_eq_none_iff
  | @inner place stars children _ _ ih =>
      obtain ⟨hpos, hchildren⟩ := hnode
      obtain ⟨below, rfl⟩ := Nat.exists_eq_add_one_of_ne_zero (Nat.ne_of_gt hpos)
      rw [insert?, Option.map_eq_none_iff, count_route_succ]
      refine ih _ ?_ (hchildren _)
      rw [Place.depth_child]
      omega

end Node

namespace Tree

variable {settings : Settings} {layout : Layout} {tree : Tree} {star : Star}
  {stars held more : List Star}

/-- Every star begins in an octant of the domain. -/
theorem route_eq (tree : Tree) :
    tree.settings.route =
      tree.domain.route (tree.settings.depthLimit - 1 + 1) := by
  have hlevels : max 1 tree.settings.depthLimit =
      tree.settings.depthLimit - 1 + 1 := by
    omega
  funext star
  rw [Settings.route, hlevels]
  rfl

/-- A tree refuses a whole star when as many stars as a cell may hold go the same
way. -/
theorem Holds.insert_eq_error_iff (h : tree.Holds stars)
    (hregular : tree.Regular) (hstar : star.length = tree.layout.width) :
    tree.insert star = .error (.depthLimit tree.settings.depthLimit) ↔
      tree.settings.starsPerCell ≤ (stars.map tree.settings.route).count
        (tree.settings.route star) := by
  let target := tree.domain.cube.octantOf star.point
  have hbelow : tree.settings.depthLimit - (tree.domain.child target).depth =
      tree.settings.depthLimit - 1 :=
    rfl
  rw [route_eq, Node.count_route_succ,
    ← (h target).insert?_eq_none_iff hbelow (hregular.within target)]
  cases hnode : (tree.octants target).insert? tree.settings tree.layout star
      (tree.domain.child target) with
  | none => exact iff_of_true (insert_of_none hstar hnode) rfl
  | some taken =>
      rw [insert, receive_of_some hstar hnode]
      exact iff_of_false (by simp) (Option.some_ne_none _)

/-- Of the stars that go one way, as many are taken as a cell may hold. -/
theorem Holds.count_feed (h : tree.Holds held) (hregular : tree.Regular)
    (hheld : ∀ way, (held.map tree.settings.route).count way ≤
      tree.settings.starsPerCell)
    (hmore : ∀ star ∈ more, star.length = tree.layout.width)
    (way : List Octant) :
    ((held ++ (tree.feed more).2).map tree.settings.route).count way =
      min tree.settings.starsPerCell
        (((held ++ more).map tree.settings.route).count way) := by
  induction more generalizing tree held with
  | nil =>
      rw [Tree.feed, List.append_nil]
      exact (Nat.min_eq_right (hheld way)).symm
  | cons star more ih =>
      rw [List.forall_mem_cons] at hmore
      have hrefused := h.insert_eq_error_iff hregular hmore.1
      cases hinsert : tree.insert star with
      | ok next =>
          have hgains := gains_of_insert hinsert
          have hroom : (held.map tree.settings.route).count
              (tree.settings.route star) < tree.settings.starsPerCell := by
            rw [← Nat.not_le, ← hrefused, hinsert]
            simp
          have hnext := @ih next (held ++ [star])
          rw [hgains.settings, hgains.layout] at hnext
          rw [feed_of_ok hinsert, List.append_cons, List.append_cons held star more]
          refine hnext (h.gains hgains) (hregular.insert hinsert) ?_ hmore.2
          intro way
          have hway := hheld way
          rw [List.map_append, List.count_append, List.map_singleton,
            List.count_singleton]
          split
          · rename_i hsame
            rw [← beq_iff_eq.mp hsame] at hway ⊢
            omega
          · exact hway
      | error fault =>
          have hfull : tree.settings.starsPerCell ≤
              (held.map tree.settings.route).count
                (tree.settings.route star) := by
            rw [← hrefused, hinsert, eq_depthLimit_of_insert hmore.1 hinsert]
          rw [feed_of_error hinsert, ih h hregular hheld hmore.2]
          simp only [List.map_append, List.count_append, List.map_cons,
            List.count_cons]
          split
          · rename_i hsame
            rw [← beq_iff_eq.mp hsame]
            omega
          · rfl

/-- Which stars a new tree has taken is known way by way. -/
theorem count_feed (hcreate : Tree.create settings layout = .ok tree)
    (hstars : ∀ star ∈ stars, star.length = layout.width)
    (way : List Octant) :
    ((tree.feed stars).2.map settings.route).count way =
      min settings.starsPerCell ((stars.map settings.route).count way) := by
  have hregular := (Reachable.fresh (.created hcreate)).regular
  have hholds := holds_of_create hcreate
  obtain ⟨rfl, _⟩ := create_eq_ok hcreate
  exact hholds.count_feed hregular (fun _ => Nat.zero_le _) hstars way

end Tree

end Starfield
