import Starfield.Proofs.Build

/-!
# Inspecting what was built

What a build has stored is loaded again with the figures that the build has
reported, as long as all numbers fit the words of an archive.  A plan may ask
for more stars in a cell than such a word can say.  The build does not notice;
the archive states a negative number then, and nobody can load it.
-/

namespace Starfield

namespace Plan

variable {parser : String → Option Plan} {files written : Files} {plan : Plan}

/-- A plan is loaded as before when another file was written. -/
theorem loadOrDefault_write {output : String} {bytes : Bytes}
    (hwrite : files.write output bytes = .ok written) {name : Option String}
    (hname : ∀ input ∈ name, Files.locate input ≠ Files.locate output)
    (h : loadOrDefault parser files name = .ok plan) :
    loadOrDefault parser written name = .ok plan := by
  cases name with
  | none => exact h
  | some input =>
      rw [loadOrDefault, load] at h ⊢
      obtain ⟨text, htext, h⟩ := ok_of_bind h
      have hread : written.read input = .ok text :=
        Files.read_write_of_ne hwrite (hname input rfl)
          (mapError_eq_ok_iff.mp htext)
      exact bind_eq_ok_iff.mpr ⟨text, mapError_eq_ok_iff.mpr hread, h⟩

end Plan

theorem inspect_eq {parser : String → Option Plan} {files : Files} {plan : Plan}
    {name : Option String}
    (hplan : Plan.loadOrDefault parser files name = .ok plan) (input : String) :
    inspect parser files input name =
      (Tree.load plan.settings plan.layout files input).mapError fun why =>
        ⟨[.loadingTree input], .fault why⟩ := by
  rw [inspect, hplan]
  rfl

/-- A word whose highest bit is set is read as a negative number. -/
theorem signed_toUInt32_of_le {n : Nat} (hle : 2 ^ 31 ≤ n) (hlt : n < 2 ^ 32) :
    signed n.toUInt32 = (n : Int) - 2 ^ 32 := by
  have hn : n.toUInt32.toNat = n := Nat.mod_eq_of_lt hlt
  rw [signed_eq_ite, hn]
  omega

namespace Tree

variable {settings : Settings} {layout : Layout}

/-- An archive that says that cells hold no stars, or fewer, is refused. -/
theorem decode_of_capacity_nonpos {bytes second rest : Bytes}
    {width capacity : Int} (hwidth : width = layout.signedWidth)
    (hfirst : Archive.takeNumber bytes = .ok (width, second))
    (hsecond : Archive.takeNumber second = .ok (capacity, rest))
    (hcapacity : capacity ≤ 0) :
    Tree.decode settings layout bytes =
      .error (.corrupt (.capacity capacity)) := by
  rw [decode, hfirst]
  change (if _ then _ else _) = _
  rw [if_neg (not_not_intro hwidth), hsecond]
  change (if _ then _ else _) = _
  rw [if_pos hcapacity]
  rfl

/-- What is written for a tree is refused when its cells may hold more stars than
a word with a sign can say. -/
theorem decode_encode_of_le {tree : Tree} (hwidth : tree.layout.width < 2 ^ 31)
    (hle : 2 ^ 31 ≤ tree.settings.starsPerCell)
    (hlt : tree.settings.starsPerCell < 2 ^ 32) :
    Tree.decode settings tree.layout tree.encode =
      .error (.corrupt (.capacity (tree.settings.starsPerCell - 2 ^ 32))) := by
  have hfirst : Archive.takeNumber tree.encode =
      .ok (tree.layout.signedWidth,
        wordBytes tree.settings.starsPerCell.toUInt32 ++
          Octant.all.flatMap fun o => (tree.octants o).encode tree.layout) := by
    rw [Layout.takeNumber_eq_ok_signedWidth_iff, encode, List.append_assoc]
    exact ⟨Layout.signed_width_of_lt hwidth, rfl⟩
  have hsecond (rest : Bytes) :
      Archive.takeNumber
          (wordBytes tree.settings.starsPerCell.toUInt32 ++ rest) =
        .ok ((tree.settings.starsPerCell : Int) - 2 ^ 32, rest) :=
    Archive.takeNumber_eq_ok_iff.mpr ⟨_, signed_toUInt32_of_le hle hlt, rfl⟩
  exact decode_of_capacity_nonpos rfl hfirst (hsecond _) (by omega)

end Tree

namespace BuildOrder

variable {parser : String → Option Plan} {order : BuildOrder}
  {files written : Files} {plan : Plan} {stars : List Star}
  {report : BuildReport}

theorem writable_built (hcreate : Tree.create (order.settings plan) plan.layout =
      .ok (order.start plan))
    (hwidth : plan.layout.width < 2 ^ 31)
    (hcapacity : (order.settings plan).starsPerCell < 2 ^ 31)
    (htaken : (order.taken plan stars).length < 2 ^ 31)
    (hvalues : min (order.settings plan).starsPerCell
      ((order.taken plan stars).length + 1) * plan.layout.width < 2 ^ 31) :
    (order.built plan stars).Writable := by
  obtain ⟨hsettings, hlayout, _⟩ := order.built_eq plan stars
  have hregular :=
    ((Tree.Reachable.fresh (.created hcreate)).feed stars).regular
  refine ⟨hlayout ▸ hwidth, hsettings ▸ hcapacity, fun entry hentry => ?_⟩
  obtain ⟨hcount, hsize⟩ := Tree.le_of_mem_listing_feed hcreate stars hentry
  have hstocked := (hregular.of_mem_listing hentry).stocked
  have hroom : entry.cell.stars.size ≤ (order.settings plan).starsPerCell :=
    hsettings ▸ hstocked.room
  have hlength := hstocked.length_values
  refine ⟨Nat.lt_of_le_of_lt hcount htaken, ?_⟩
  calc
    (entry.cell.values (order.built plan stars).layout).length =
        entry.cell.stars.size * plan.layout.width := by
      rw [← hlayout]
      exact hlength
    _ ≤ min (order.settings plan).starsPerCell
        ((order.taken plan stars).length + 1) * plan.layout.width :=
      Nat.mul_le_mul_right _ (Nat.le_min.mpr ⟨hroom, hsize⟩)
    _ < 2 ^ 31 := hvalues

/-- What a build has stored is loaded again when its numbers fit. -/
theorem inspect_of_writable
    (hplan : Plan.loadOrDefault parser written order.plan = .ok plan)
    (hcreate : Tree.create (order.settings plan) plan.layout =
      .ok (order.start plan))
    (hwrite : files.write order.output (order.built plan stars).encode =
      .ok written)
    (hfits : (order.built plan stars).Writable) :
    inspect parser written order.output order.plan =
      .ok (order.built plan stars) := by
  rw [inspect_eq hplan, load_built hcreate hwrite hfits]
  rfl

/-- It is not loaded when cells may hold too many stars. -/
theorem inspect_of_le
    (hplan : Plan.loadOrDefault parser written order.plan = .ok plan)
    (hwrite : files.write order.output (order.built plan stars).encode =
      .ok written)
    (hwidth : plan.layout.width < 2 ^ 31)
    (hle : 2 ^ 31 ≤ (order.settings plan).starsPerCell)
    (hlt : (order.settings plan).starsPerCell < 2 ^ 32) :
    inspect parser written order.output order.plan =
      .error ⟨[.loadingTree order.output], .fault (.corrupt
        (.capacity ((order.settings plan).starsPerCell - 2 ^ 32)))⟩ := by
  obtain ⟨hsettings, hlayout, _⟩ := order.built_eq plan stars
  have hdecode := @Tree.decode_encode_of_le plan.settings
    (order.built plan stars) (hlayout ▸ hwidth) (hsettings ▸ hle)
    (hsettings ▸ hlt)
  rw [hlayout, hsettings] at hdecode
  rw [inspect_eq hplan, load_eq (Files.read_write hwrite), hdecode]
  rfl

/-- What a build has stored is loaded again when it may be stored, with the
figures that were reported and the number of stars for a cell that was asked
for.  It may be stored when these numbers fit words with a sign.  When the number
of stars for a cell does not fit, the build succeeds all the same, and its file
cannot be loaded. -/
theorem inspect_run (hrun : order.run parser files = (.ok report, written))
    (hplan : Plan.loadOrDefault parser files order.plan = .ok plan)
    (hname : ∀ name ∈ order.plan,
      Files.locate name ≠ Files.locate order.output) :
    let capacity := (order.settings plan).starsPerCell
    ∃ built : Tree, written.read order.output = .ok built.encode ∧
      (built.Writable →
        inspect parser written order.output order.plan = .ok built ∧
          built.census = report.census ∧
          built.settings.starsPerCell = capacity) ∧
      (capacity < 2 ^ 31 → report.inserted < 2 ^ 31 →
        min capacity (report.inserted + 1) * plan.layout.width < 2 ^ 31 →
          built.Writable) ∧
      (2 ^ 31 ≤ capacity → capacity < 2 ^ 32 →
        inspect parser written order.output order.plan =
          .error ⟨[.loadingTree order.output],
            .fault (.corrupt (.capacity (capacity - 2 ^ 32)))⟩) := by
  obtain ⟨plan', bytes, stars, hplan', _, hlists, hcreate, hwrite, rfl⟩ :=
    run_eq_ok_iff.mp hrun
  cases hplan.symm.trans hplan'
  obtain ⟨hsettings, _, hcount⟩ := order.built_eq plan stars
  have hplan := Plan.loadOrDefault_write hwrite hname hplan
  refine ⟨order.built plan stars, Files.read_write hwrite, fun hfits => ?_,
    fun hcapacity hinserted hvalues => ?_,
    inspect_of_le hplan hwrite hlists.width_lt⟩
  · exact ⟨inspect_of_writable hplan hcreate hwrite hfits, rfl,
      congrArg Settings.starsPerCell hsettings⟩
  · have hinserted' : (order.report plan stars).inserted =
        (order.taken plan stars).length := hcount
    rw [hinserted'] at hinserted hvalues
    exact writable_built hcreate hlists.width_lt hcapacity hinserted hvalues

/-- What was built from two stars in one place is loaded again. -/
theorem inspect_run_twins :
    ∃ report written built,
      (skyOrder (some 1)).run Plan.ofText?
          (onlyStars (wordBytes 8 ++ twins.flatMap valueBytes)) =
          (.ok report, written) ∧
        inspect Plan.ofText? written "map" none = .ok built ∧
        built.census = report.census ∧ built.settings.starsPerCell = 1 := by
  obtain ⟨written, _, hrun⟩ :=
    @exists_run_skyOrder Plan.ofText? twins 1 (Nat.le_refl 1) (by decide)
  have hinserted : ((skyOrder (some 1)).report {} twins).inserted = 1 := by
    decide +kernel
  obtain ⟨built, _, hload, hfits, _⟩ := inspect_run hrun rfl nofun
  rw [hinserted] at hfits
  exact ⟨_, written, built, hrun, hload (hfits (by decide) (by decide)
    (by decide))⟩

/-- Not everything that was built can be loaded: an empty catalogue is enough,
when cells may hold as many stars as a word without a sign can just say. -/
theorem not_forall_inspect_ok :
    ¬ ∀ (order : BuildOrder) (files written : Files) (report : BuildReport)
        (plan : Plan),
      order.run Plan.ofText? files = (.ok report, written) →
        Plan.loadOrDefault Plan.ofText? files order.plan = .ok plan →
        (∀ name ∈ order.plan,
          Files.locate name ≠ Files.locate order.output) →
          ∃ loaded,
            inspect Plan.ofText? written order.output order.plan =
              .ok loaded ∧
            loaded.census = report.census ∧
            loaded.settings.starsPerCell =
              (order.settings plan).starsPerCell := by
  intro h
  obtain ⟨written, hwrite, hrun⟩ :=
    @exists_run_skyOrder Plan.ofText? [] (2 ^ 31) (by decide) nofun
  obtain ⟨loaded, hload, _⟩ := h _ _ _ _ {} hrun rfl nofun
  have hfails := @inspect_of_le Plan.ofText? (skyOrder (some (2 ^ 31))) _ _ {} _
    rfl hwrite (by decide) (by decide) (by decide)
  cases hfails.symm.trans hload

end BuildOrder

end Starfield
