import LatticeSurgery.Block
import LatticeSurgery.Json.Value

/-! # JSON forms of the library's types

Each type is written in one way. It is read from an object with its fields in any order or from an
array with its fields in order, and a choice between alternatives is read from its name.
-/

namespace LatticeSurgery

/-- A type with a JSON form. -/
class Form (α : Type) where
  write : α → Json
  read? : Json → Option α

namespace Form

/-- Reads each of several values. -/
def readAll? [Form α] : List Json → Option (List α)
  | [] => some []
  | item :: items => do
      let a ← read? item
      let as ← readAll? items
      return a :: as

/-- Reads members whose keys are node identifiers; of equal keys the last one counts. -/
def readEntries? [Form α] (entries : NodeMap α) : List (List Char × Json) → Option (NodeMap α)
  | [] => some entries
  | (raw, value) :: rest => do
      let id ← Json.natural? raw
      let a ← read? value
      readEntries? (entries.insert id a) rest

/-- Reads a field that has to be there. -/
def readField? [Form α] (field : Option Json) : Option α := field.bind read?

/-- Reads a field that has a default. -/
def readFieldD? [Form α] (default : α) : Option Json → Option α
  | none => some default
  | some value => read? value

instance : Form Nat where
  write n := .number (Nat.toDigits 10 n)
  read?
    | .number literal => Json.natural? literal
    | _ => none

instance : Form String where
  write text := .string (Quoted.encode text)
  read?
    | .string raw => Quoted.decode? raw
    | _ => none

instance [Form α] : Form (List α) where
  write as := .array (as.map write)
  read?
    | .array items => readAll? items
    | _ => none

instance [Form α] : Form (Option α) where
  write
    | none => .null
    | some a => write a
  read?
    | .null => some none
    | value => (read? value).map some

instance [Form α] : Form (NodeMap α) where
  write entries := .object (entries.toList.map fun (id, a) => (Nat.toDigits 10 id, write a))
  read?
    | .object members => readEntries? ∅ members
    | _ => none

/-- Name of a choice as a JSON value. -/
def writeTag (name : String) : Json := .string (Quoted.encode name)

/-- The alternative that goes by the name. -/
def readTag? (alternatives : List (String × α)) (value : Json) : Option α :=
  value.tag?.bind fun name => alternatives.lookup name

instance : Form Coord where
  write c := .record [("row", write c.row), ("col", write c.col)]
  read? value := do
    match ← value.fields? ["row", "col"] with
    | [row, col] => return { row := ← readField? row, col := ← readField? col }
    | _ => none

instance : Form Boundary where
  write
    | .z => writeTag "Z"
    | .x => writeTag "X"
  read? := readTag? [("Z", .z), ("X", .x)]

instance : Form Axis where
  write
    | .horizontal => writeTag "Horizontal"
    | .vertical => writeTag "Vertical"
  read? := readTag? [("Horizontal", .horizontal), ("Vertical", .vertical)]

instance : Form PatchKind where
  write
    | .register => writeTag "Register"
    | .route => writeTag "Route"
    | .external => writeTag "Extern"
    | .blocked => writeTag "Blocked"
  read? := readTag?
    [("Register", .register), ("Route", .route), ("Extern", .external), ("Blocked", .blocked)]

instance : Form ResourceKind where
  write
    | .exclusive => writeTag "Exclusive"
    | .magicState => writeTag "MagicState"
  read? := readTag? [("Exclusive", .exclusive), ("MagicState", .magicState)]

/-- The operations that are written as a bare name. -/
def plainOperations : List (String × Operation) :=
  [("Init", .init), ("Prep", .prep), ("Reset", .reset), ("Measure", .measure), ("X", .pauliX),
    ("Z", .pauliZ), ("Hadamard", .hadamard), ("Phase", .phase), ("T", .t), ("Cnot", .cnot),
    ("Toffoli", .toffoli), ("Move", .move)]

instance : Form Operation where
  write
    | .custom label cycles ancillae =>
        .record [("Custom", .record
          [("label", write label), ("cycles", write cycles), ("ancillae", write ancillae)])]
    | op => writeTag (((plainOperations.find? (·.2 = op)).map (·.1)).getD "")
  read? value := do
    match ← value.variant? with
    | ("Custom", some content) =>
        match ← content.fields? ["label", "cycles", "ancillae"] with
        | [label, cycles, ancillae] =>
            return .custom (← readField? label) (← readField? cycles) (← readField? ancillae)
        | _ => none
    | _ => readTag? plainOperations value

instance : Form Factory where
  write f := .record [("symbol", write f.symbol), ("period", write f.period)]
  read? value := do
    match ← value.fields? ["symbol", "period"] with
    | [symbol, period] => return { symbol := ← readField? symbol, period := ← readField? period }
    | _ => none

instance : Form Draw where
  write d := .record [("symbol", write d.symbol), ("instance", write d.rank), ("period", write d.period)]
  read? value := do
    match ← value.fields? ["symbol", "instance", "period"] with
    | [symbol, rank, period] =>
        return { symbol := ← readField? symbol, rank := ← readField? rank, period := ← readField? period }
    | _ => none

instance : Form Stage where
  write
    | .waiting => writeTag "Waiting"
    | .active remaining => .record [("Active", .record [("remaining", write remaining)])]
    | .resolved => writeTag "Resolved"
  read? value := do
    match ← value.variant? with
    | ("Active", some content) =>
        match ← content.fields? ["remaining"] with
        | [remaining] => return .active (← readField? remaining)
        | _ => none
    | _ => readTag? [("Waiting", .waiting), ("Resolved", .resolved)] value

instance : Form CycleRecord where
  write r := .record
    [("cycle", write r.cycle), ("admitted", write r.admitted), ("active", write r.active),
      ("resolved", write r.resolved)]
  read? value := do
    match ← value.fields? ["cycle", "admitted", "active", "resolved"] with
    | [cycle, admitted, active, resolved] =>
        return {
          cycle := ← readField? cycle
          admitted := ← readField? admitted
          active := ← readField? active
          resolved := ← readField? resolved }
    | _ => none

instance : Form Timeline where
  write t := .record [("cycles", write t.cycles), ("routes", write t.routes)]
  read? value := do
    match ← value.fields? ["cycles", "routes"] with
    | [cycles, routes] => return { cycles := ← readField? cycles, routes := ← readField? routes }
    | _ => none

instance : Form Plan where
  write p := .record [("cycles", write p.cycles), ("layers", write p.layers), ("bindings", write p.draws)]
  read? value := do
    match ← value.fields? ["cycles", "layers", "bindings"] with
    | [cycles, layers, draws] =>
        return { cycles := ← readField? cycles, layers := ← readField? layers, draws := ← readField? draws }
    | _ => none

instance : Form Chains where
  write c := .record
    [("instances", write c.roots), ("refills", write c.refills), ("retired", write c.retired),
      ("traversal", write c.plan)]
  read? value := do
    match ← value.fields? ["instances", "refills", "retired", "traversal"] with
    | [roots, refills, retired, plan] =>
        return {
          roots := ← readField? roots
          refills := ← readField? refills
          retired := ← readField? retired
          plan := ← readField? plan }
    | _ => none

instance : Form Layer where
  write l := .record
    [("nodes", write l.nodes), ("congestion", write l.congestion), ("magic_state_consumers", write l.fed)]
  read? value := do
    match ← value.fields? ["nodes", "congestion", "magic_state_consumers"] with
    | [nodes, congestion, fed] =>
        return { nodes := ← readField? nodes, congestion := ← readField? congestion, fed := ← readField? fed }
    | _ => none

instance : Form Lock where
  write l := .record [("node", write l.node), ("locked_at", write l.lockedAt), ("until", write l.freeAt)]
  read? value := do
    match ← value.fields? ["node", "locked_at", "until"] with
    | [node, lockedAt, freeAt] =>
        return { node := ← readField? node, lockedAt := ← readField? lockedAt, freeAt := ← readField? freeAt }
    | _ => none

instance : Form Patch where
  write p := .record
    [("coord", write p.coord), ("kind", write p.kind), ("orientation", write p.orientation),
      ("lock", write p.lock), ("last_used", write p.lastUsed)]
  read? value := do
    match ← value.fields? ["coord", "kind", "orientation", "lock", "last_used"] with
    | [coord, kind, orientation, lock, lastUsed] =>
        return {
          coord := ← readField? coord
          kind := ← readField? kind
          orientation := ← readField? orientation
          lock := ← readFieldD? none lock
          lastUsed := ← readField? lastUsed }
    | _ => none

instance : Form RouterSettings where
  write s := .record [("stall_limit", write s.stallLimit)]
  read? value := do
    match ← value.fields? ["stall_limit"] with
    | [stallLimit] => return { stallLimit := ← readFieldD? ({} : RouterSettings).stallLimit stallLimit }
    | _ => none

instance : Form Settings where
  write s := .record
    [("channel_capacity", write s.channelCapacity), ("factories", write s.factories),
      ("router", write s.router)]
  read? value := do
    match ← value.fields? ["channel_capacity", "factories", "router"] with
    | [channelCapacity, factories, router] =>
        let default : Settings := {}
        return {
          channelCapacity := ← readFieldD? default.channelCapacity channelCapacity
          factories := ← readFieldD? default.factories factories
          router := ← readFieldD? default.router router }
    | _ => none

/-- JSON text of a value. -/
def text [Form α] (style : Json.Style) (a : α) : String := (write a).text style

/-- The value that a JSON text stands for. -/
def ofText [Form α] (text : String) : Except Error α :=
  match (Json.parse? text).bind read? with
  | some a => .ok a
  | none => .error .malformed

end Form

namespace Settings

/-- Content of a settings file. -/
def save (s : Settings) : String := Form.text .pretty s

/-- Settings from the content of a file, `none` standing for a missing file. -/
def load (content : Option ByteArray) : Except Error Settings := do
  match content.bind String.fromUTF8? with
  | none => throw .unreadable
  | some text =>
      let settings ← Form.ofText text
      settings.validate
      return settings

end Settings

end LatticeSurgery
