/-
JsonpySql/PyVal.lean

The values a document may hold: what JSON has, and the `datetime`, `date`,
`time`, `Decimal` and `UUID` values that `json_default` encodes.

Three things are done with a value:

* it is printed (`str`, `repr`), which is how the indexes make their keys;
* it is compared (`==`, `<` and the like), which is what scans without an index
  do;
* it is written as JSON and read back.  `viaJson` is the composition of the
  two; a value is JSON-native when it comes back unchanged, and what has come
  back once is native (`viaJson_viaJson`).
-/
import Mathlib.Data.Rat.Init
import JsonpySql.OrdDict
import JsonpySql.PyFloat
import JsonpySql.PyStr

/-! ### Dates, times, decimals, UUIDs -/

/-- `n` in decimal, with at least `width` digits. -/
def padded (width n : ℕ) : String :=
  let ds := Nat.toDigits 10 n
  String.ofList (List.replicate (width - ds.length) '0' ++ ds)

/-- A `tzinfo`: its offset from UTC in microseconds, and its `repr`. -/
structure PyTzInfo where
  utcoffset : ℤ
  repr : String
deriving DecidableEq

/-- The offset as `isoformat` appends it. -/
def PyTzInfo.isoformat (tz : PyTzInfo) : String :=
  let us := tz.utcoffset.natAbs
  let seconds := us / 1000000
  let micro := us % 1000000
  (if tz.utcoffset < 0 then "-" else "+") ++ padded 2 (seconds / 3600) ++ ":" ++
    padded 2 (seconds / 60 % 60) ++
    (if seconds % 60 ≠ 0 ∨ micro ≠ 0 then ":" ++ padded 2 (seconds % 60) else "") ++
    (if micro ≠ 0 then "." ++ padded 6 micro else "")

structure PyDate where
  year : ℕ
  month : ℕ
  day : ℕ
deriving DecidableEq

structure PyTime where
  hour : ℕ
  minute : ℕ
  second : ℕ
  microsecond : ℕ
  tzinfo : Option PyTzInfo
  fold : Bool
deriving DecidableEq

namespace PyDate

def isoformat (d : PyDate) : String :=
  padded 4 d.year ++ "-" ++ padded 2 d.month ++ "-" ++ padded 2 d.day

/-- The positional arguments of a `repr`. -/
def args (d : PyDate) : List ℕ := [d.year, d.month, d.day]

def repr (d : PyDate) : String :=
  "datetime.date(" ++ ", ".intercalate (d.args.map toString) ++ ")"

end PyDate

namespace PyTime

def isoformat (t : PyTime) : String :=
  padded 2 t.hour ++ ":" ++ padded 2 t.minute ++ ":" ++ padded 2 t.second ++
    (if t.microsecond ≠ 0 then "." ++ padded 6 t.microsecond else "") ++
    (t.tzinfo.map PyTzInfo.isoformat).getD ""

/-- The positional arguments of a `repr`: trailing zero seconds are dropped. -/
def args (t : PyTime) : List ℕ :=
  [t.hour, t.minute] ++
    if t.microsecond ≠ 0 then [t.second, t.microsecond]
    else if t.second ≠ 0 then [t.second] else []

def tzArg (t : PyTime) : List String := (t.tzinfo.map fun tz => "tzinfo=" ++ tz.repr).toList

def foldArg (t : PyTime) : List String := if t.fold then ["fold=1"] else []

def repr (t : PyTime) : String :=
  "datetime.time(" ++ ", ".intercalate (t.args.map toString ++ t.tzArg ++ t.foldArg) ++ ")"

end PyTime

structure PyDateTime where
  date : PyDate
  time : PyTime
deriving DecidableEq

namespace PyDateTime

def isoformat (d : PyDateTime) (sep : String) : String :=
  d.date.isoformat ++ sep ++ d.time.isoformat

def repr (d : PyDateTime) : String :=
  "datetime.datetime(" ++
    ", ".intercalate ((d.date.args ++ d.time.args).map toString ++ d.time.foldArg ++
      d.time.tzArg) ++ ")"

end PyDateTime

/-- A `Decimal` other than a NaN: `(-1)^neg * coeff * 10^exp`, or infinite. -/
inductive PyDecimal
  | finite (neg : Bool) (coeff : ℕ) (exp : ℤ)
  | inf (neg : Bool)
deriving DecidableEq

/-- `str` of a `Decimal`: scientific notation unless the exponent is small. -/
def PyDecimal.str : PyDecimal → String
  | .inf neg => (if neg then "-" else "") ++ "Infinity"
  | .finite neg coeff exp =>
      let digits := Nat.toDigits 10 coeff
      let len : ℤ := digits.length
      let leftdigits := exp + len
      let dotplace := if exp ≤ 0 ∧ -6 < leftdigits then leftdigits else 1
      let mantissa :=
        if dotplace ≤ 0 then
          "0." ++ String.ofList (List.replicate (-dotplace).toNat '0' ++ digits)
        else if len ≤ dotplace then
          String.ofList (digits ++ List.replicate (dotplace - len).toNat '0')
        else
          String.ofList (digits.take dotplace.toNat) ++ "." ++
            String.ofList (digits.drop dotplace.toNat)
      let e := leftdigits - dotplace
      let suffix := if e = 0 then "" else "E" ++ (if e < 0 then "-" else "+") ++ toString e.natAbs
      (if neg then "-" else "") ++ mantissa ++ suffix

/-- `str` of a `UUID`. -/
def uuidStr (u : BitVec 128) : String :=
  let h := hexDigits 32 u.toNat
  "-".intercalate
    ([h.take 8, (h.drop 8).take 4, (h.drop 12).take 4, (h.drop 16).take 4, h.drop 20].map
      String.ofList)

/-! ### Values -/

/-- Values without parts. -/
inductive PyScalar
  | none
  | bool (b : Bool)
  | int (n : ℤ)
  | float (x : PyFloat)
  | str (s : String)
  | datetime (d : PyDateTime)
  | date (d : PyDate)
  | time (t : PyTime)
  | decimal (d : PyDecimal)
  | uuid (u : BitVec 128)
deriving DecidableEq

/-- Values.  The mappings inside a document have string keys, in insertion
order. -/
inductive PyVal
  | scalar (s : PyScalar)
  | list (xs : List PyVal)
  | dict (es : List (String × PyVal))

namespace PyVal

@[match_pattern] abbrev none : PyVal := .scalar .none
@[match_pattern] abbrev bool (b : Bool) : PyVal := .scalar (.bool b)
@[match_pattern] abbrev int (n : ℤ) : PyVal := .scalar (.int n)
@[match_pattern] abbrev float (x : PyFloat) : PyVal := .scalar (.float x)
@[match_pattern] abbrev str (s : String) : PyVal := .scalar (.str s)

/-! ### Identity of values -/

mutual

/-- Structural equality; not the interpreter's `==`, for which see `eq`. -/
def same : PyVal → PyVal → Bool
  | .scalar a, .scalar b => a = b
  | .list xs, .list ys => sameList xs ys
  | .dict es, .dict fs => sameEntries es fs
  | _, _ => false

def sameList : List PyVal → List PyVal → Bool
  | [], [] => true
  | x :: xs, y :: ys => same x y && sameList xs ys
  | _, _ => false

def sameEntries : List (String × PyVal) → List (String × PyVal) → Bool
  | [], [] => true
  | (k, x) :: es, (l, y) :: fs => k = l && same x y && sameEntries es fs
  | _, _ => false

end

mutual

theorem same_iff : ∀ a b : PyVal, same a b = true ↔ a = b
  | .scalar a, .scalar b => by simp [same]
  | .list xs, .list ys => by simp [same, sameList_iff xs ys]
  | .dict es, .dict fs => by simp [same, sameEntries_iff es fs]
  | .scalar _, .list _ | .scalar _, .dict _ | .list _, .scalar _ | .list _, .dict _
  | .dict _, .scalar _ | .dict _, .list _ => by simp [same]

theorem sameList_iff : ∀ xs ys : List PyVal, sameList xs ys = true ↔ xs = ys
  | [], [] => by simp [sameList]
  | [], _ :: _ | _ :: _, [] => by simp [sameList]
  | x :: xs, y :: ys => by simp [sameList, same_iff x y, sameList_iff xs ys]

theorem sameEntries_iff : ∀ es fs : List (String × PyVal), sameEntries es fs = true ↔ es = fs
  | [], [] => by simp [sameEntries]
  | [], _ :: _ | _ :: _, [] => by simp [sameEntries]
  | (k, x) :: es, (l, y) :: fs => by
      simp [sameEntries, same_iff x y, sameEntries_iff es fs]

end

instance : DecidableEq PyVal := fun a b => decidable_of_iff _ (same_iff a b)

instance : Inhabited PyVal := ⟨.none⟩

end PyVal

/-! ### Printing -/

/-- `repr` of a value without parts. -/
def PyScalar.repr : PyScalar → String
  | .none => "None"
  | .bool b => if b then "True" else "False"
  | .int n => toString n
  | .float x => x.repr
  | .str s => strRepr s
  | .datetime d => d.repr
  | .date d => d.repr
  | .time t => t.repr
  | .decimal d => "Decimal('" ++ d.str ++ "')"
  | .uuid u => "UUID('" ++ uuidStr u ++ "')"

/-- `str` of a value without parts. -/
def PyScalar.toStr : PyScalar → String
  | .str s => s
  | .datetime d => d.isoformat " "
  | .date d => d.isoformat
  | .time t => t.isoformat
  | .decimal d => d.str
  | .uuid u => uuidStr u
  | s => s.repr

namespace PyVal

mutual

/-- `repr(v)`. -/
def repr : PyVal → String
  | .scalar s => s.repr
  | .list xs => "[" ++ ", ".intercalate (reprList xs) ++ "]"
  | .dict es => "\x7b" ++ ", ".intercalate (reprEntries es) ++ "\x7d"

def reprList : List PyVal → List String
  | [] => []
  | x :: xs => repr x :: reprList xs

def reprEntries : List (String × PyVal) → List String
  | [] => []
  | (k, x) :: es => (strRepr k ++ ": " ++ repr x) :: reprEntries es

end

/-- `str(v)`: only a value without parts differs from its `repr`. -/
def toStr : PyVal → String
  | .scalar s => s.toStr
  | v => v.repr

@[simp] theorem toStr_str (s : String) : (PyVal.str s).toStr = s := rfl

@[simp] theorem toStr_int (n : ℤ) : (PyVal.int n).toStr = toString n := rfl

end PyVal

/-! ### Truth -/

/-- `bool(v)` of a value without parts. -/
def PyScalar.truthy : PyScalar → Bool
  | .none => false
  | .bool b => b
  | .int n => n ≠ 0
  | .float x => x.truthy
  | .str s => s ≠ ""
  | .decimal (.finite _ coeff _) => coeff ≠ 0
  | _ => true

/-- `bool(v)`. -/
def PyVal.truthy : PyVal → Bool
  | .scalar s => s.truthy
  | .list xs => !xs.isEmpty
  | .dict es => !es.isEmpty

/-! ### Comparison -/

/-- The exact value of a number. -/
inductive PyNumber
  | rat (q : ℚ)
  | inf (neg : Bool)
  | nan
deriving DecidableEq

/-- `(-1)^neg * m * base^e`. -/
def scaledRat (neg : Bool) (m base : ℕ) (e : ℤ) : ℚ :=
  mkRat ((if neg then -1 else 1) * (m * base ^ e.toNat)) (base ^ (-e).toNat)

/-- The number a value without parts is, if it is one: `False` is 0 and `True`
is 1. -/
def PyScalar.number? : PyScalar → Option PyNumber
  | .bool b => some (.rat (if b then 1 else 0))
  | .int n => some (.rat n)
  | .float (.finite x) => some (.rat (scaledRat x.neg x.mant 2 x.exp))
  | .float (.inf neg) => some (.inf neg)
  | .float .nan => some .nan
  | .decimal (.finite neg coeff exp) => some (.rat (scaledRat neg coeff 10 exp))
  | .decimal (.inf neg) => some (.inf neg)
  | _ => Option.none

/-- `==` on numbers: a NaN equals nothing. -/
def PyNumber.eq (a b : PyNumber) : Bool := a = b && a ≠ .nan

/-- The ordering comparisons. -/
inductive OrderOp
  | lt | le | gt | ge
deriving DecidableEq

namespace OrderOp

def symbol : OrderOp → String
  | .lt => "<"
  | .le => "<="
  | .gt => ">"
  | .ge => ">="

/-- The comparison where any two values are ordered. -/
def holds {α : Type*} [LT α] [LE α] [DecidableLT α] [DecidableLE α] (op : OrderOp) (a b : α) :
    Bool :=
  match op with
  | .lt => a < b
  | .le => a ≤ b
  | .gt => b < a
  | .ge => b ≤ a

end OrderOp

/-- Where a number stands to the finite ones. -/
def PyNumber.rank : PyNumber → ℤ
  | .inf true => -1
  | .inf false => 1
  | _ => 0

/-- An ordering comparison of numbers: with a NaN it is false. -/
def PyNumber.order (op : OrderOp) : PyNumber → PyNumber → Bool
  | .nan, _ | _, .nan => false
  | .rat p, .rat q => op.holds p q
  | a, b => op.holds a.rank b.rank

/-- `==` on values without parts.  Two dates, times or UUIDs never meet here:
one side is always a value read from a file. -/
def PyScalar.eq (a b : PyScalar) : Bool :=
  match a.number?, b.number? with
  | some x, some y => x.eq y
  | _, _ => a = b

/-- The name the interpreter gives the type in a `TypeError`. -/
def PyScalar.typeName : PyScalar → String
  | .none => "NoneType"
  | .bool _ => "bool"
  | .int _ => "int"
  | .float _ => "float"
  | .str _ => "str"
  | .datetime _ => "datetime.datetime"
  | .date _ => "datetime.date"
  | .time _ => "datetime.time"
  | .decimal _ => "decimal.Decimal"
  | .uuid _ => "UUID"

namespace PyVal

def typeName : PyVal → String
  | .scalar s => s.typeName
  | .list _ => "list"
  | .dict _ => "dict"

mutual

/-- `a == b`: numbers by value, lists by position, mappings whatever their
order. -/
def eq : PyVal → PyVal → Bool
  | .scalar a, .scalar b => a.eq b
  | .list xs, .list ys => eqList xs ys
  | .dict es, .dict fs => es.length = fs.length && eqEntries es fs
  | _, _ => false

def eqList : List PyVal → List PyVal → Bool
  | [], [] => true
  | x :: xs, y :: ys => eq x y && eqList xs ys
  | _, _ => false

def eqEntries : List (String × PyVal) → List (String × PyVal) → Bool
  | [], _ => true
  | (k, x) :: es, fs =>
      (match fs.lookup k with
        | some y => eq x y
        | Option.none => false) && eqEntries es fs

end

/-- The message of the `TypeError` of an ordering comparison. -/
def orderError (op : OrderOp) (a b : PyVal) : String :=
  "'" ++ op.symbol ++ "' not supported between instances of '" ++ a.typeName ++ "' and '" ++
    b.typeName ++ "'"

mutual

/-- An ordering comparison, or the message of the `TypeError` it raises. -/
def order (op : OrderOp) : PyVal → PyVal → Except String Bool
  | .scalar a, .scalar b =>
      match a, b, a.number?, b.number? with
      | .str s, .str t, _, _ => .ok (op.holds s t)
      | _, _, some x, some y => .ok (x.order op y)
      | _, _, _, _ => .error (orderError op (.scalar a) (.scalar b))
  | .list xs, .list ys => orderList op xs ys
  | a, b => .error (orderError op a b)

/-- Lists compare at their first difference, or else by their lengths. -/
def orderList (op : OrderOp) : List PyVal → List PyVal → Except String Bool
  | x :: xs, y :: ys => if eq x y then orderList op xs ys else order op x y
  | xs, ys => .ok (op.holds xs.length ys.length)

end

@[simp] theorem eq_str (s t : String) : eq (.str s) (.str t) = decide (s = t) := by
  simp [eq, PyScalar.eq, PyScalar.number?]

/-- Only the string itself equals a string. -/
theorem eq_str_iff (v : PyVal) (s : String) : eq v (.str s) = true ↔ v = .str s := by
  cases v with
  | scalar a => cases a <;> simp [eq, PyScalar.eq, PyScalar.number?]
  | list xs => simp [eq]
  | dict es => simp [eq]

@[simp] theorem order_str (op : OrderOp) (s t : String) :
    order op (.str s) (.str t) = .ok (op.holds s t) := by
  simp [order]

@[simp] theorem order_int (op : OrderOp) (m n : ℤ) :
    order op (.int m) (.int n) = .ok (op.holds m n) := by
  cases op <;> simp [order, PyScalar.number?, PyNumber.order, OrderOp.holds]

end PyVal

/-! ### Through JSON and back -/

/-- `json_default` on the values JSON does not have; the others are written as
they are. -/
def jsonDefault : PyScalar → PyScalar
  | .datetime d => .str (d.isoformat "T")
  | .date d => .str d.isoformat
  | .time t => .str t.isoformat
  | .decimal d => .str d.str
  | .uuid u => .str (uuidStr u)
  | s => s

theorem jsonDefault_jsonDefault (s : PyScalar) : jsonDefault (jsonDefault s) = jsonDefault s := by
  cases s <;> rfl

namespace PyVal

mutual

/-- `json.loads(json.dumps(v, default=json_default))`. -/
def viaJson : PyVal → PyVal
  | .scalar s => .scalar (jsonDefault s)
  | .list xs => .list (viaJsonList xs)
  | .dict es => .dict (viaJsonEntries es)

def viaJsonList : List PyVal → List PyVal
  | [] => []
  | x :: xs => viaJson x :: viaJsonList xs

def viaJsonEntries : List (String × PyVal) → List (String × PyVal)
  | [] => []
  | (k, x) :: es => (k, viaJson x) :: viaJsonEntries es

end

mutual

/-- What has been through JSON once comes back unchanged. -/
theorem viaJson_viaJson : ∀ v : PyVal, viaJson (viaJson v) = viaJson v
  | .scalar s => by simp [viaJson, jsonDefault_jsonDefault]
  | .list xs => by simp [viaJson, viaJsonList_viaJsonList xs]
  | .dict es => by simp [viaJson, viaJsonEntries_viaJsonEntries es]

theorem viaJsonList_viaJsonList : ∀ xs : List PyVal,
    viaJsonList (viaJsonList xs) = viaJsonList xs
  | [] => rfl
  | x :: xs => by simp [viaJsonList, viaJson_viaJson x, viaJsonList_viaJsonList xs]

theorem viaJsonEntries_viaJsonEntries : ∀ es : List (String × PyVal),
    viaJsonEntries (viaJsonEntries es) = viaJsonEntries es
  | [] => rfl
  | (k, x) :: es => by
      simp [viaJsonEntries, viaJson_viaJson x, viaJsonEntries_viaJsonEntries es]

end

@[simp] theorem viaJson_str (s : String) : viaJson (.str s) = .str s := rfl

@[simp] theorem viaJson_bool (b : Bool) : viaJson (.bool b) = .bool b := rfl

end PyVal

/-! ### Documents -/

/-- A document: field names to values, in insertion order. -/
abbrev Doc := OrdDict String PyVal

namespace Doc

/-- The document read back after it was written as JSON. -/
def viaJson (d : Doc) : Doc := d.mapValues PyVal.viaJson

/-- JSON-native documents are unchanged by being written and read. -/
def Native (d : Doc) : Prop := d.viaJson = d

instance (d : Doc) : Decidable d.Native := inferInstanceAs (Decidable (_ = _))

theorem native_viaJson (d : Doc) : d.viaJson.Native := by
  refine OrdDict.ext_entries ?_
  simp [viaJson, OrdDict.mapValues, PyVal.viaJson_viaJson]

@[simp] theorem viaJson_viaJson (d : Doc) : d.viaJson.viaJson = d.viaJson := d.native_viaJson

theorem viaJson_set (d : Doc) (k : String) (v : PyVal) :
    viaJson (d.set k v) = d.viaJson.set k v.viaJson :=
  OrdDict.mapValues_set _ _ _ _

/-- `document.get(field)`: a missing field reads as `None`. -/
def get (d : Doc) (field : String) : PyVal := (d.get? field).getD .none

end Doc

example : PyVal.toStr (.list [.int 3, .str "a'b", .float (.inf true)]) = "[3, \"a'b\", -inf]" := by
  decide
