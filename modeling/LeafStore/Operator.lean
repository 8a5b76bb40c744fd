import LeafStore.Select
/-!
Filter operators: a comparison of one leaf with one operand or with a list of them. Values of
different kinds never compare, and an empty container passes no operator.
-/
namespace LeafStore

inductive Scalar where
  | text (value : String)
  | number (value : Double)
  | bool (value : Bool)
  | null
  deriving DecidableEq

namespace Scalar

def ofJson : Json → Except FilterError Scalar
  | .text s => .ok (text s)
  | .int n => .ok (number (Double.ofInt n))
  | .float d => .ok (number d)
  | .bool b => .ok (bool b)
  | .null => .ok null
  | json => .error (.notScalar json)

def kind : Scalar → Kind
  | text _ => .text
  | number _ => .number
  | bool _ => .bool
  | null => .null

def toJson : Scalar → Json
  | text s => .text s
  | number d => Json.ofDouble d
  | bool b => .bool b
  | null => .null

def order? : Scalar → Leaf → Option Ordering
  | text b, .text a => some (textOrder a b)
  | number b, .number a => a.compare? b
  | bool b, .bool a => some (boolOrder a b)
  | null, .null => some .eq
  | _, _ => none

def equals (s : Scalar) (leaf : Leaf) : Bool :=
  s.order? leaf = some .eq

def isOrdered : Scalar → Bool
  | text _ | number _ => true
  | bool _ | null => false

end Scalar

inductive Operator where
  | eq (operand : Scalar)
  | ne (operand : Scalar)
  | gt (operand : Scalar)
  | gte (operand : Scalar)
  | lt (operand : Scalar)
  | lte (operand : Scalar)
  | isIn (operands : List Scalar)
  | notIn (operands : List Scalar)
  deriving DecidableEq

namespace Operator

def readList (name : String) : Json → Except FilterError (List Scalar)
  | .array items => items.mapM Scalar.ofJson
  | _ => .error (.notList name)

def read (name : String) (operand : Json) : Except FilterError Operator :=
  match name with
  | "$eq" => (Scalar.ofJson operand).map eq
  | "$ne" => (Scalar.ofJson operand).map ne
  | "$gt" => (Scalar.ofJson operand).map gt
  | "$gte" => (Scalar.ofJson operand).map gte
  | "$lt" => (Scalar.ofJson operand).map lt
  | "$lte" => (Scalar.ofJson operand).map lte
  | "$in" => (readList name operand).map isIn
  | "$nin" => (readList name operand).map notIn
  | _ => .error (.unknownOperator name)

def name : Operator → String
  | eq _ => "$eq"
  | ne _ => "$ne"
  | gt _ => "$gt"
  | gte _ => "$gte"
  | lt _ => "$lt"
  | lte _ => "$lte"
  | isIn _ => "$in"
  | notIn _ => "$nin"

def operandJson : Operator → Json
  | eq s | ne s | gt s | gte s | lt s | lte s => s.toJson
  | isIn operands | notIn operands => .array (operands.map Scalar.toJson)

def display (o : Operator) : String :=
  o.name ++ " " ++ o.operandJson.compact

def comparison? : Operator → Option (Comparison × Scalar)
  | eq s => some (.eq, s)
  | gt s => some (.gt, s)
  | gte s => some (.ge, s)
  | lt s => some (.lt, s)
  | lte s => some (.le, s)
  | ne _ | isIn _ | notIn _ => none

/-- The predicate that a store evaluates exactly as this operator, if there is one. -/
def pushdown? (o : Operator) : Option Predicate :=
  match o.comparison? with
  | some (comparison, .text s) => some ⟨comparison, .text s⟩
  | some (comparison, .number d) => some ⟨comparison, .number d⟩
  | some (.eq, .bool b) => some ⟨.eq, .bool b⟩
  | _ => none

def holdsOrdered (s : Scalar) (leaf : Leaf) (comparison : Comparison) : Bool :=
  s.isOrdered && (s.order? leaf).any comparison.holds

def acceptsScalar (o : Operator) (leaf : Leaf) : Bool :=
  match o with
  | eq s => s.equals leaf
  | ne s => (s.order? leaf).any (· ≠ .eq)
  | gt s => holdsOrdered s leaf .gt
  | gte s => holdsOrdered s leaf .ge
  | lt s => holdsOrdered s leaf .lt
  | lte s => holdsOrdered s leaf .le
  | isIn operands => operands.any (·.equals leaf)
  | notIn operands => operands.all fun s => s.kind = leaf.kind && !s.equals leaf

def accepts (o : Operator) (leaf : Leaf) : Bool :=
  !leaf.isMarker && o.acceptsScalar leaf

end Operator

end LeafStore
