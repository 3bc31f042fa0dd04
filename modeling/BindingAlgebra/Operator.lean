namespace BindingAlgebra

-- The one way in which a text can fail to be understood: a token that names no operator.
structure UnknownOperator where
  token : String
  deriving DecidableEq, Repr

def UnknownOperator.message (e : UnknownOperator) : String :=
  "unknown operator: " ++ e.token

inductive LogicalOperator where
  | and
  | or
  deriving DecidableEq, Repr

namespace LogicalOperator

def token : LogicalOperator → String
  | and => "&&"
  | or  => "||"

def ofToken (token : String) : Except UnknownOperator LogicalOperator :=
  match [and, or].find? (·.token = token) with
  | some op => .ok op
  | none    => .error ⟨token⟩

def dual : LogicalOperator → LogicalOperator
  | and => or
  | or  => and

-- The truth of an operand that alone decides the whole.
def absorbing : LogicalOperator → Bool
  | and => false
  | or  => true

theorem ofToken_token (op : LogicalOperator) : ofToken op.token = .ok op := by
  cases op <;> rfl

theorem token_inj {op op' : LogicalOperator} (h : op.token = op'.token) : op = op' := by
  have ht := congrArg ofToken h
  rw [ofToken_token, ofToken_token] at ht
  exact Except.ok.inj ht

theorem dual_dual (op : LogicalOperator) : op.dual.dual = op := by
  cases op <;> rfl

end LogicalOperator

inductive ComparisonOperator where
  | equal
  | notEqual
  | lessThan
  | lessOrEqual
  | greaterThan
  | greaterOrEqual
  deriving DecidableEq, Repr

namespace ComparisonOperator

def all : List ComparisonOperator :=
  [equal, notEqual, lessThan, lessOrEqual, greaterThan, greaterOrEqual]

def token : ComparisonOperator → String
  | equal          => "==="
  | notEqual       => "!=="
  | lessThan       => "<"
  | lessOrEqual    => "<="
  | greaterThan    => ">"
  | greaterOrEqual => ">="

def ofToken (token : String) : Except UnknownOperator ComparisonOperator :=
  match all.find? (·.token = token) with
  | some op => .ok op
  | none    => .error ⟨token⟩

-- The operator of the opposite comparison.
def negate : ComparisonOperator → ComparisonOperator
  | equal          => notEqual
  | notEqual       => equal
  | lessThan       => greaterOrEqual
  | lessOrEqual    => greaterThan
  | greaterThan    => lessOrEqual
  | greaterOrEqual => lessThan

theorem ofToken_token (op : ComparisonOperator) : ofToken op.token = .ok op := by
  cases op <;> rfl

theorem token_inj {op op' : ComparisonOperator} (h : op.token = op'.token) : op = op' := by
  have ht := congrArg ofToken h
  rw [ofToken_token, ofToken_token] at ht
  exact Except.ok.inj ht

theorem negate_negate (op : ComparisonOperator) : op.negate.negate = op := by
  cases op <;> rfl

end ComparisonOperator
end BindingAlgebra
