import IndexedStore.Error

/-!
# Region settings

How a region lays out its entries, whether it writes values through to a backing store, how many values
it keeps in memory, and when it brings its indexes up to date (`config::RegionConfig`). Settings are checked
when a region is made of them.
-/

namespace IndexedStore

/-- How the entries of a region are laid out (`config::DataPolicy`). -/
inductive Layout where
  /-- All in one bucket. -/
  | replicate
  /-- Spread over buckets by hash. -/
  | partition (buckets : Nat)
deriving Repr, DecidableEq, Inhabited

/-- When the indexes of a region are brought up to date (`config::IndexMaintenanceMode`). -/
inductive Maintenance where
  /-- Before a mutation returns. -/
  | synchronous
  /-- By a worker that takes queued updates in order. -/
  | asynchronous
deriving Repr, DecidableEq, Inhabited

namespace Maintenance

def description : Maintenance → String
  | .synchronous => "synchronous (read-after-write through indexes)"
  | .asynchronous => "asynchronous (background worker, eventually consistent)"

end Maintenance

structure Settings where
  layout : Layout
  /-- Every value is written through to the backing store. -/
  persistent : Bool
  /-- The number of values kept in memory, where it is limited. -/
  overflow : Option Nat
  maintenance : Maintenance
  /-- The number of stripes of a hash index. -/
  hashStripes : Nat
deriving Repr, DecidableEq, Inhabited

namespace Settings

/-- The number of values kept in memory where a limit is wanted and none is given: the default of
`EvictionConfig`. -/
def defaultResidents : Nat := 10000

/-- The number of stripes of a hash index where none is given: the default of `IndexConfig`. -/
def defaultStripes : Nat := 16

/-- One bucket, nothing on disk, indexes kept up to date at once (`RegionConfig::replicate`). -/
def replicate : Settings where
  layout := .replicate
  persistent := false
  overflow := none
  maintenance := .synchronous
  hashStripes := defaultStripes

/-- As `replicate`, with the entries spread over buckets (`RegionConfig::partition`). -/
def partition (buckets : Nat) : Settings := { replicate with layout := .partition buckets }

def withPersistence (s : Settings) : Settings := { s with persistent := true }

def withOverflow (s : Settings) (residents : Nat) : Settings := { s with overflow := some residents }

def withAsynchronousMaintenance (s : Settings) : Settings := { s with maintenance := .asynchronous }

def withHashStripes (s : Settings) (stripes : Nat) : Settings := { s with hashStripes := stripes }

/-- Each layout with and without persistence, and each of these with and without overflow
(`RegionConfig::all_shapes`). -/
def allShapes (residents : Nat) : List Settings :=
  [replicate, partition 13, replicate.withPersistence, (partition 13).withPersistence].flatMap fun base =>
    [base, base.withOverflow residents]

def bucketCount (s : Settings) : Nat :=
  match s.layout with
  | .replicate => 1
  | .partition buckets => buckets

/-- Whether values ever go to a backing store (`RegionConfig::uses_disk`). -/
def usesDisk (s : Settings) : Bool := s.persistent || s.overflow.isSome

def isSynchronous (s : Settings) : Bool := s.maintenance == .synchronous

/-- What is wrong with the settings, if anything: the checks of `RegionConfig::validate`, in their order. -/
def fault? (s : Settings) : Option SettingsFault :=
  if s.layout = .partition 0 then some .noBuckets
  else if s.overflow = some 0 then some .noResidents
  else if s.hashStripes = 0 then some .noStripes
  else none

def validate (s : Settings) : Except Error Unit :=
  match s.fault? with
  | some fault => .error (.badSettings fault)
  | none => .ok ()

/-- The settings in few words (`RegionConfig::describe`). -/
def describe (s : Settings) : String :=
  let layout := match s.layout with
    | .replicate => "replicate"
    | .partition buckets => "partition(" ++ toString buckets ++ ")"
  let overflow := match s.overflow with
    | some residents => ["overflow(" ++ toString residents ++ ")"]
    | none => []
  Text.joinWith "+" ([layout] ++ (if s.persistent then ["persistent"] else []) ++ overflow ++
    (if s.isSynchronous then [] else ["async-index"]))

end Settings

end IndexedStore
