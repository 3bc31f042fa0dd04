import BindingAlgebra.Expr.Path
import BindingAlgebra.Text

namespace BindingAlgebra.Expr

-- Expressions that binding text cannot express are outlined, and to outline a tree means to put it
-- together anew by the very operations that may outline. So these operations are first defined for
-- any outlining of trees. Its flag says whether logic and conditionals are entered, too.
abbrev Outlining := Expr → Bool → Expr

-- The class of formatters that evaluate what has been outlined.
def standardFormatter : String := "sap.fe.core.formatters.StandardFormatter"

def evaluateFormatter : String := standardFormatter ++ "#evaluateComplexExpression"

def ifElseFormatter : String := standardFormatter ++ "#ifElse"

def concatFormatter : String := standardFormatter ++ "#concat"

-- A call of a formatter with parts that are ready. The name of a method follows that of its class
-- after a `#`, and is handed on as the first part.
def formatCall (name : String) (parameters : List Expr) : Expr :=
  if hasUnresolvable parameters then unresolvable
  else
    let owner  := name.toList.takeWhile (· ≠ '#')
    let method := (name.toList.dropWhile (· ≠ '#')).drop 1
    formatter (.ofList owner) <|
      if method = [] then parameters else ofString (.ofList method) :: parameters

def bindsDefaultModel (e : Expr) : Bool :=
  e.path?.any (·.model.isNone)

-- The keys of the entity in whose context a binding stands, unless something is bound there anyway.
def withKeys (keys : Option (List String)) (parameters : List Expr) : List Expr :=
  match keys with
  | none      => parameters
  | some keys =>
    if parameters.any bindsDefaultModel then parameters
    else parameters ++ keys.map (pathTo ·)

-- Unless complex parts are to be ignored, a part that is neither a constant nor a path causes the
-- call to be outlined.
def formatWith (outline : Outlining) (name : String) (parameters : List Expr)
    (keys : Option (List String)) (ignoreComplex : Bool) : Expr :=
  if hasUnresolvable parameters then unresolvable
  else
    let parameters := withKeys keys parameters
    let call       := formatCall name parameters
    if !ignoreComplex && parameters.any (fun e => !e.isConstant && !e.isPath) then
      outline call true
    else call

def unitType : String := "sap.ui.model.odata.type.Unit"

def currencyType : String := "sap.ui.model.odata.type.Currency"

def unitsPath : String := "/##@@requestUnitsOfMeasure"

def currenciesPath : String := "/##@@requestCurrencyCodes"

-- Amounts with a unit or a currency need to look its customizing up.
def lookupPath? (typeName : String) : Option String :=
  if typeName = unitType then some unitsPath
  else if typeName = currencyType then some currenciesPath
  else none

def withLookup (typeName : String) (parameters : List Expr) : List Expr :=
  match lookupPath? typeName with
  | none        => parameters
  | some target =>
    if parameters.any (·.path?.any (·.path = target)) then parameters
    else
      parameters ++ [path { path := target, targetType := some "any", mode := some .oneTime }]

def composite (typeName : String) (parameters : List Expr) (keys : Option (List String))
    (formatOptions : Option (ObjectLiteral Expr)) : Expr :=
  if hasUnresolvable parameters then unresolvable
  else compositeType typeName (withLookup typeName (withKeys keys parameters)) formatOptions none

def invoke (function : String) (arguments : List Expr) (receiver : Option Expr) : Expr :=
  if hasUnresolvable (arguments ++ receiver.toList) then unresolvable
  else call receiver function arguments

def lengthOf : Expr → Expr
  | path b               => length (path b)
  | constant (.string s) => ofInt (lengthInUnits s)
  | constant (.array es) => ofInt es.length
  | _                    => unresolvable

-- The text that constants make up together. Undefined adds nothing to it.
def joinConstants? : List Expr → Option String
  | []               => some ""
  | constant v :: es =>
    (joinConstants? es).map ((if v.isUndefined then "" else v.display) ++ ·)
  | _                => none

def joinWith (outline : Outlining) (parts : List Expr) : Expr :=
  if hasUnresolvable parts then unresolvable
  else
    match joinConstants? parts with
    | some s => ofString s
    | none   =>
      if parts.any isComplex then outline (formatCall concatFormatter parts) false
      else concat parts

end BindingAlgebra.Expr
