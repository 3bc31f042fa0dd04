import BindingAlgebra.Expr.Basic

namespace BindingAlgebra.Expr

open ObjectLiteral

mutual

-- Structural equality. Nothing equals an unresolvable expression, and decimals compare as numbers.
-- The order of the attributes of an object does not matter.
def same : Expr → Expr → Bool
  | constant v, constant w                     => sameValue v w
  | path b, path c                             => samePath b c
  | embeddedBinding s, embeddedBinding t       => s == t
  | embeddedExpression s, embeddedExpression t => s == t
  | reference s, reference t                   => s == t
  | not e, not f                               => e.same f
  | truthy e, truthy f                         => e.same f
  | set o es, set p fs                         => o == p && sameAll es fs
  | comparison o l r, comparison p l' r'       => o == p && l.same l' && r.same r'
  | ifElse c t f, ifElse c' t' f'              => c.same c' && t.same t' && f.same f'
  | concat es, concat fs                       => sameAll es fs
  | length e, length f                         => e.same f
  | formatter n es, formatter m fs             => n == m && sameAll es fs
  | compositeType n es o p, compositeType m fs o' p' =>
    n == m && sameAll es fs && sameObject o o' && sameObject p p'
  | call none n es, call none m fs             => n == m && sameAll es fs
  | call (some e) n es, call (some f) m fs     => n == m && e.same f && sameAll es fs
  | _, _                                       => false
termination_by structural e => e

def sameValue : Value Expr → Value Expr → Bool
  | .undefined, .undefined => true
  | .null, .null           => true
  | .boolean a, .boolean b => a == b
  | .integer m, .integer n => m == n
  | .decimal x, .decimal y => x.equals y
  | .string s, .string t   => s == t
  | .array es, .array fs   => sameAll es fs
  | .object ⟨es⟩, .object ⟨fs⟩ => sameEntries es fs
  | _, _                   => false
termination_by structural v => v

def samePath : PathBinding Expr → PathBinding Expr → Bool
  | ⟨p, m, t, g, d, co, fo, pa⟩, ⟨p', m', t', g', d', co', fo', pa'⟩ =>
    p == p' && m == m' && t == t' && g == g' && d == d' && sameObject co co' &&
      sameObject fo fo' && sameObject pa pa'
termination_by structural b => b

def sameObject : Option (ObjectLiteral Expr) → Option (ObjectLiteral Expr) → Bool
  | none, none           => true
  | some ⟨es⟩, some ⟨fs⟩ => sameEntries es fs
  | _, _                 => false
termination_by structural o => o

def sameEntries : List (String × Expr) → List (String × Expr) → Bool
  | [], fs           => fs.isEmpty
  | (k, e) :: es, fs =>
    match takeValue? k fs with
    | none         => false
    | some (f, fs) => e.same f && sameEntries es fs
termination_by structural es => es

def sameAll : List Expr → List Expr → Bool
  | [], []           => true
  | e :: es, f :: fs => e.same f && sameAll es fs
  | _, _             => false
termination_by structural es => es

end

end BindingAlgebra.Expr

namespace BindingAlgebra.ObjectLiteral

def same (o p : ObjectLiteral Expr) : Bool :=
  Expr.sameEntries o.entries p.entries

end BindingAlgebra.ObjectLiteral
