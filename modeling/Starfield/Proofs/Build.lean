import Mathlib
import Starfield.CommandLine
import Starfield.Proofs.Catalogs
import Starfield.Proofs.Feeding
import Starfield.Proofs.Jobs

/-!
# Building from a catalogue

A build succeeds only when its plan can be used, the catalogue consists of a
header and whole stars and the tree can be written; then everything in its
report and in the file follows from the stars.  In all other cases it fails, and
no file has been touched by then.  How a text states a plan makes no difference
to all this, so the parser may be any.
-/

namespace Starfield

/-! ## Plans -/

namespace Plan

variable {parser : String → Option Plan} {files : Files} {plan : Plan}

structure Usable (plan : Plan) : Prop where
  settings : plan.settings.validate = .ok ()
  layout : plan.layout.validate = .ok ()

end Plan

namespace Catalog

theorem load_eq_ok_iff {files : Files} {width : Nat} {name : String}
    {catalog : Catalog} :
    load width files name = .ok catalog ↔
      ∃ bytes, files.lookUp name = .ok (.file bytes) ∧
        start width { bytes } = .ok catalog := by
  rw [load]
  cases files.lookUp name with
  | error why => exact ⟨nofun, nofun⟩
  | ok entry =>
      cases entry with
      | directory => exact ⟨nofun, nofun⟩
      | file bytes => simp [mapError_eq_ok_iff]

end Catalog

namespace BuildOrder

def settings (order : BuildOrder) (plan : Plan) : Settings :=
  { plan.settings with
    starsPerCell := order.starsPerCell.getD plan.settings.starsPerCell }

def start (order : BuildOrder) (plan : Plan) : Tree :=
  { settings := order.settings plan, layout := plan.layout }

def built (order : BuildOrder) (plan : Plan) (stars : List Star) : Tree :=
  ((order.start plan).feed stars).1

/-- The stars that the tree has taken, in the order of the catalogue. -/
def taken (order : BuildOrder) (plan : Plan) (stars : List Star) : List Star :=
  ((order.start plan).feed stars).2

def report (order : BuildOrder) (plan : Plan) (stars : List Star) : BuildReport where
  inserted := (order.built plan stars).census.stars
  skipped := ((order.start plan).faults stars).length
  census := (order.built plan stars).census

variable {parser : String → Option Plan} {order : BuildOrder}
  {files written : Files} {plan : Plan} {bytes : Bytes}
  {stars : List Star} {report : BuildReport}

/-! ## Success -/

theorem create_start (hplan : plan.Usable)
    (hcapacity : ∀ capacity ∈ order.starsPerCell, 1 ≤ capacity) :
    Tree.create (order.settings plan) plan.layout = .ok (order.start plan) := by
  have hsettings : (order.settings plan).validate = .ok () := by
    rw [settings]
    cases hoverride : order.starsPerCell with
    | none => exact hplan.settings
    | some capacity =>
        exact plan.settings.validate_starsPerCell hplan.settings
          (hcapacity capacity hoverride)
  exact @Tree.create_eq_ok_of_valid (order.start plan)
    ⟨hsettings, hplan.layout⟩

/-- A build succeeds just when the plan can be used, the catalogue lists stars,
the tree can be created and its archive can be written, and what it reports and
writes depends on the stars in the catalogue only. -/
theorem run_eq_ok_iff :
    order.run parser files = (.ok report, written) ↔
      ∃ plan bytes stars,
        Plan.loadOrDefault parser files order.plan = .ok plan ∧
        files.lookUp order.input = .ok (.file bytes) ∧
        Catalog.Lists plan.layout.width stars bytes ∧
        Tree.create (order.settings plan) plan.layout =
          .ok (order.start plan) ∧
        files.write order.output (order.built plan stars).encode =
          .ok written ∧
        report = order.report plan stars := by
  simp only [run, Job.bind_eq_ok_iff, Job.get_eq_ok_iff, Job.lift_eq_ok_iff,
    mapError_eq_ok_iff]
  constructor
  · rintro ⟨_, _, ⟨rfl, rfl⟩, plan, _, ⟨hplan, rfl⟩, _, _, ⟨rfl, rfl⟩, catalog,
      _, ⟨hcatalog, rfl⟩, fresh, _, ⟨hcreate, rfl⟩, h⟩
    obtain ⟨bytes, hbytes, hstart⟩ := Catalog.load_eq_ok_iff.mp hcatalog
    obtain ⟨hnew, hvalid⟩ := Tree.create_eq_ok hcreate
    change fresh = order.start plan at hnew
    subst fresh
    rcases hstars : catalog.stars with ⟨stars, ended⟩
    rw [hstars] at h
    obtain ⟨⟨tree, skipped⟩, _, ⟨htree, rfl⟩, h⟩ := h
    cases ended with
    | some why => cases h
    | none =>
        obtain ⟨_, _, hsave, h⟩ := Job.bind_eq_ok_iff.mp h
        have hlists := (Catalog.stars_eq_iff_lists hvalid.three_le_width).mp
          ⟨catalog, hstart, hstars⟩
        rw [Tree.insertAccepted_eq hlists.whole, Nat.zero_add] at htree
        cases htree
        cases h
        exact ⟨plan, bytes, stars, hplan, hbytes, hlists, hcreate,
          Tree.save_eq_ok_iff.mp (Job.adapt_eq_ok_iff.mp hsave), rfl⟩
  · rintro ⟨plan, bytes, stars, hplan, hbytes, hlists, hcreate, hwrite, rfl⟩
    have hwidth : 3 ≤ plan.layout.width :=
      (Tree.create_eq_ok hcreate).2.three_le_width
    obtain ⟨catalog, hstart, hstars⟩ :=
      (@Catalog.stars_eq_iff_lists _ _ hwidth { bytes }).mpr hlists
    have hfeed : (order.start plan).insertAccepted 0 stars =
        .ok (order.built plan stars,
          ((order.start plan).faults stars).length) := by
      rw [Tree.insertAccepted_eq hlists.whole, Nat.zero_add]
      rfl
    refine ⟨files, files, ⟨rfl, rfl⟩, plan, files, ⟨hplan, rfl⟩, files, files,
      ⟨rfl, rfl⟩, catalog, files,
      ⟨Catalog.load_eq_ok_iff.mpr ⟨bytes, hbytes, hstart⟩, rfl⟩,
      order.start plan, files, ⟨hcreate, rfl⟩, ?_⟩
    rw [hstars]
    refine ⟨_, files, ⟨hfeed, rfl⟩, Job.bind_eq_ok_iff.mpr ⟨(), written, ?_, rfl⟩⟩
    exact Job.adapt_eq_ok_iff.mpr (Tree.save_eq_ok_iff.mpr hwrite)

/-! ## The tree built -/

theorem built_eq (order : BuildOrder) (plan : Plan) (stars : List Star) :
    (order.built plan stars).settings = order.settings plan ∧
      (order.built plan stars).layout = plan.layout ∧
      (order.built plan stars).census.stars =
        (order.taken plan stars).length := by
  obtain ⟨octants, census, hbuilt, hstars⟩ :=
    (order.start plan).exists_feed_eq stars
  rw [built, hbuilt]
  exact ⟨rfl, rfl, hstars.trans (Nat.zero_add _)⟩

/-- What has been written for the tree built is read as this tree. -/
theorem decode_built (hcreate : Tree.create (order.settings plan) plan.layout =
      .ok (order.start plan))
    (hfits : (order.built plan stars).Writable) :
    Tree.decode plan.settings plan.layout (order.built plan stars).encode =
      .ok (order.built plan stars) := by
  have hbare : (order.built plan stars).bare = order.built plan stars :=
    Tree.bare_feed hcreate stars
  have hreachable : (order.built plan stars).Reachable :=
    (Tree.Reachable.fresh (.created hcreate)).feed stars
  have harchived := hreachable.archived_bare hfits
  obtain ⟨hsettings, hlayout, _⟩ := order.built_eq plan stars
  rw [hbare] at harchived
  rw [Tree.decode_eq_ok_iff, ← hlayout]
  refine ⟨[], ?_⟩
  have hsame : (order.built plan stars).settings =
      { plan.settings with
        starsPerCell := (order.built plan stars).settings.starsPerCell } := by
    rw [hsettings]
    rfl
  have hfront := harchived.decodeFront_encode_append hsame []
  rwa [List.append_nil] at hfront

theorem load_eq {settings : Settings} {layout : Layout} {name : String}
    (hread : files.read name = .ok bytes) :
    Tree.load settings layout files name = Tree.decode settings layout bytes := by
  rw [Tree.load, hread]
  rfl

theorem load_built (hcreate : Tree.create (order.settings plan) plan.layout =
      .ok (order.start plan))
    (hwrite : files.write order.output (order.built plan stars).encode =
      .ok written)
    (hfits : (order.built plan stars).Writable) :
    Tree.load plan.settings plan.layout written order.output =
      .ok (order.built plan stars) := by
  rw [load_eq (Files.read_write hwrite)]
  exact decode_built hcreate hfits

/-- The report accounts for every star of the catalogue. -/
structure Accounts (order : BuildOrder) (plan : Plan) (stars : List Star)
    (report : BuildReport) : Prop where
  total : report.inserted + report.skipped = stars.length
  /-- Every star left out was refused for the depth limit. -/
  skipped : (order.start plan).faults stars =
    List.replicate report.skipped (.depthLimit plan.settings.depthLimit)
  inserted : (order.taken plan stars).length = report.inserted
  inOrder : (order.taken plan stars).Sublist stars
  /-- Without the stars left out the same tree is built. -/
  built : (order.start plan).insertStars (order.taken plan stars) =
    (order.built plan stars, none)
  census : (order.built plan stars).census = report.census

/-- There is a catalogue with the given bytes, and nothing else. -/
def onlyStars (bytes : Bytes) : Files where
  entries := [(["sky"], bytes)]

theorem lookUp_onlyStars (bytes : Bytes) :
    (onlyStars bytes).lookUp "sky" = .ok (.file bytes) := by
  cbv

theorem exists_write_onlyStars (bytes content : Bytes) :
    ∃ written, (onlyStars bytes).write "map" content = .ok written := by
  have hfollow : (onlyStars bytes).follow "map" = .ok ([], "map") := by cbv
  have hlook : (onlyStars bytes).look [] "map" = .error .notFound := by cbv
  have hslash : "map".endsWith "/" = false := by cbv
  refine ⟨(onlyStars bytes).put (Location.step [] "map") content, ?_⟩
  rw [Files.write, hfollow]
  simp [hslash, hlook]

/-- A tree is built from that catalogue, to the plan with nothing stated. -/
def skyOrder (starsPerCell : Option Nat) : BuildOrder where
  input := "sky"
  output := "map"
  starsPerCell := starsPerCell

theorem exists_run_skyOrder {capacity : Nat} (hcapacity : 1 ≤ capacity)
    (hstars : ∀ star ∈ stars, star.length = 8) :
    ∃ written,
      (onlyStars (wordBytes 8 ++ stars.flatMap valueBytes)).write "map"
          ((skyOrder (some capacity)).built {} stars).encode = .ok written ∧
        (skyOrder (some capacity)).run parser
            (onlyStars (wordBytes 8 ++ stars.flatMap valueBytes)) =
          (.ok ((skyOrder (some capacity)).report {} stars), written) := by
  obtain ⟨written, hwrite⟩ := exists_write_onlyStars
    (wordBytes 8 ++ stars.flatMap valueBytes)
    ((skyOrder (some capacity)).built {} stars).encode
  have hcreate := @create_start (skyOrder (some capacity)) {} ⟨rfl, rfl⟩
    fun _ h => Option.some.inj h ▸ hcapacity
  exact ⟨written, hwrite, run_eq_ok_iff.mpr ⟨{}, _, stars, rfl,
    lookUp_onlyStars _, ⟨by decide, hstars, rfl⟩, hcreate, hwrite, rfl⟩⟩

def twins : List Star := List.replicate 2 (List.replicate 8 .zero)

end BuildOrder

end Starfield
