import BindingAlgebra.Expr.Conditional
import BindingAlgebra.Expr.Equality

namespace BindingAlgebra.Expr

-- What becomes of one node: what `f` makes of it if it is of the kind in question, and otherwise the
-- node built anew from what became of its children. `f` is given the node as it stood.
def settle (kind : Kind) (f : Expr → StateM σ Expr) (e : Expr) (rebuilt : StateM σ Expr) :
    StateM σ Expr := do
  let e' ← rebuilt
  if e.kind = kind then f e else return e'

mutual

-- Replaces the nodes of one kind, children before parents and from left to right. Calls, formatters,
-- composite types and concatenations are always entered, logic and conditionals only if `all` is
-- set. What is entered is put together by the operations that build such nodes. The replacements
-- below a node that is itself replaced are dropped.
def replaceWith (outline : Outlining) (kind : Kind) (f : Expr → StateM σ Expr) (all : Bool) :
    Expr → StateM σ Expr
  | call none n es => settle kind f (call none n es) do
    let es' ← replaceAllWith outline kind f all es
    return invoke n es' none
  | call (some e) n es => settle kind f (call (some e) n es) do
    let e'  ← replaceWith outline kind f all e
    let es' ← replaceAllWith outline kind f all es
    return invoke n es' (some e')
  | formatter n es => settle kind f (formatter n es) do
    let es' ← replaceAllWith outline kind f all es
    return if hasUnresolvable es' then unresolvable else formatter n es'
  | compositeType n es fo pa => settle kind f (compositeType n es fo pa) do
    let es' ← replaceAllWith outline kind f all es
    return if hasUnresolvable es' then unresolvable else compositeType n es' fo pa
  | concat es => settle kind f (concat es) do
    let es' ← replaceAllWith outline kind f all es
    return joinWith outline es'
  | ifElse c t e => settle kind f (ifElse c t e) do
    if !all then return ifElse c t e
    let c' ← replaceWith outline kind f all c
    let t' ← replaceWith outline kind f all t
    let e' ← replaceWith outline kind f all e
    return chooseWith outline c' t' e'
  | not e => settle kind f (not e) do
    if !all then return not e
    let e' ← replaceWith outline kind f all e
    return negate e'
  | truthy e => settle kind f (truthy e) do
    if !all then return truthy e
    let e' ← replaceWith outline kind f all e
    return truthOf e'
  | set op es => settle kind f (set op es) do
    if !all then return set op es
    let es' ← replaceAllWith outline kind f all es
    return setOf op es'
  | comparison op l r => settle kind f (comparison op l r) do
    if !all then return comparison op l r
    let l' ← replaceWith outline kind f all l
    let r' ← replaceWith outline kind f all r
    return relate op l' r'
  | e => settle kind f e (return e)
termination_by structural e => e

def replaceAllWith (outline : Outlining) (kind : Kind) (f : Expr → StateM σ Expr) (all : Bool) :
    List Expr → StateM σ (List Expr)
  | []      => return []
  | e :: es => do
    let e'  ← replaceWith outline kind f all e
    let es' ← replaceAllWith outline kind f all es
    return e' :: es'
termination_by structural es => es

end

end BindingAlgebra.Expr
