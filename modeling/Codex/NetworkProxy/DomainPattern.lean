import Codex.NetworkProxy.Config
import Codex.Data.ExceptFold
import Codex.Data.Wildcard

namespace Codex.NetworkProxy

open Text

/-!
# Domain patterns

A domain pattern is an exact host, `*.` in front of a domain for its subdomains, or `**.` for the
domain and its subdomains.  It is read in two ways:

* `expandDomainPattern` — the globs that decide about a host at run time, collected in a `GlobSet`
  by `compileGlobsetWithPolicy`;
* `DomainPattern.parseForConstraints` — the pattern as the managed constraints compare it, with
  `DomainPattern.allows`.
-/

/-! ### Patterns -/

inductive DomainPattern
  | apexAndSubdomains (domain : Text)
  | subdomainsOnly (domain : Text)
  | exact (domain : Text)
deriving DecidableEq

namespace DomainPattern

def parseDomain (domain : Text) (build : Text → DomainPattern) : DomainPattern :=
  let domain := trim domain
  if domain = [] then .exact [] else build domain

/-- Decode the wildcard in front of a pattern. -/
def parse (input : Text) : DomainPattern :=
  let input := trim input
  if input = [] then .exact []
  else match stripPrefix "**." input with
    | some domain => parseDomain domain .apexAndSubdomains
    | none =>
      match stripPrefix "*." input with
      | some domain => parseDomain domain .subdomainsOnly
      | none => .exact input

/-- The globs a pattern stands for. -/
def globs : DomainPattern → List Text
  | .exact domain => [domain]
  | .subdomainsOnly domain => ["?*." ++ domain]
  | .apexAndSubdomains domain => [domain, "?*." ++ domain]

end DomainPattern

variable (pattern : Text)

def expandDomainPattern : List Text := (DomainPattern.parse pattern).globs

/-- Normalize the host behind the wildcard of a pattern. -/
def normalizePattern : Text :=
  let pattern := trim pattern
  if pattern = ['*'] then ['*']
  else match stripPrefix "**." pattern with
    | some domain => "**." ++ normalizeHost domain
    | none =>
      match stripPrefix "*." pattern with
      | some domain => "*." ++ normalizeHost domain
      | none => normalizeHost pattern

/-- Whether a pattern stands for every host. -/
def isGlobalWildcardDomainPattern : Bool :=
  (expandDomainPattern (normalizePattern pattern)).contains ['*']

/-! ### Compiled sets -/

inductive GlobalWildcard
  | allow
  | reject
deriving DecidableEq

/-- A compiled set of globs: the texts it was built from, in order and without repetitions. -/
abbrev GlobSet := List Text

variable (deps : Dependencies)

/-- Add a glob that is not in the set yet. -/
def addGlob (seen : GlobSet) (candidate : Text) : Except ErrorChain GlobSet :=
  if seen.contains candidate then .ok seen
  else match deps.globError candidate with
    | none => .ok (seen ++ [candidate])
    | some err => .error ["invalid glob pattern: " ++ candidate, err]

/-- Add the globs of one pattern. -/
def addPattern (globalWildcard : GlobalWildcard) (seen : GlobSet) (pattern : Text) :
    Except ErrorChain GlobSet :=
  if globalWildcard = .reject ∧ isGlobalWildcardDomainPattern pattern then
    .error [("unsupported global wildcard domain pattern \"*\"; use exact hosts or scoped " ++
      "wildcards like *.example.com or **.example.com").toList]
  else (expandDomainPattern (normalizePattern pattern)).foldlM (addGlob deps) seen

variable (patterns : List Text)

def compileGlobsetWithPolicy (globalWildcard : GlobalWildcard) :
    Except ErrorChain GlobSet := do
  let globs ← patterns.foldlM (addPattern deps globalWildcard) []
  match deps.globSetError globs with
  | none => .ok globs
  | some err => .error [err]

def compileAllowlistGlobset : Except ErrorChain GlobSet :=
  compileGlobsetWithPolicy deps patterns .allow

def compileDenylistGlobset : Except ErrorChain GlobSet :=
  compileGlobsetWithPolicy deps patterns .reject

/-! ### Matching

`globset` is taken to match `*` with any text, `?` with any character, and any other character
with those that differ from it in case only. -/

/-- What one character of a glob matches. -/
def globToken : Char → Data.Token Char
  | '*' => .many fun _ => true
  | '?' => .one fun _ => true
  | c => .one fun d => deps.foldCase c = deps.foldCase d

/-- Whether a host matches a glob of the set. -/
def GlobSet.isMatch (set : GlobSet) (host : Text) : Bool :=
  set.any fun glob => Data.matchTokens (glob.map (globToken deps)) host

/-! ### Patterns as the constraints compare them -/

/-- The domain of a pattern, as the `url` crate writes it; empty if the crate refuses it. -/
def parseDomainForConstraints (domain : Text) : Text :=
  let domain := trimEndDots (trim domain)
  if domain = [] then []
  else
    let host := if domain.head? = some '[' ∧ domain.getLast? = some ']' then
      (domain.drop 1).dropLast else domain
    if host.contains '*' || host.contains '?' || host.contains '%' then domain
    else (deps.urlHost host).getD []

def normalizeDomain (domain : Text) : Text := toAsciiLowercase (trimEndDots domain)

def domainEq (left right : Text) : Bool := normalizeDomain left = normalizeDomain right

def isSubdomainOrEqual (child parent : Text) : Bool :=
  normalizeDomain child = normalizeDomain parent ||
    ('.' :: normalizeDomain parent).isSuffixOf (normalizeDomain child)

def isStrictSubdomain (child parent : Text) : Bool :=
  normalizeDomain child ≠ normalizeDomain parent &&
    ('.' :: normalizeDomain parent).isSuffixOf (normalizeDomain child)

namespace DomainPattern

/-- Decode the wildcard in front of a pattern, with the domain as the `url` crate writes it. -/
def parseForConstraints (deps : Dependencies) (input : Text) : DomainPattern :=
  let input := trim input
  if input = [] then .exact []
  else match stripPrefix "**." input with
    | some domain => .apexAndSubdomains (parseDomainForConstraints deps domain)
    | none =>
      match stripPrefix "*." input with
      | some domain => .subdomainsOnly (parseDomainForConstraints deps domain)
      | none => .exact (parseDomainForConstraints deps input)

/-- Whether a managed pattern covers a candidate. -/
def allows : (managed candidate : DomainPattern) → Bool
  | .exact domain, .exact candidate => domainEq candidate domain
  | .exact _, _ => false
  | .subdomainsOnly domain, .exact candidate => isStrictSubdomain candidate domain
  | .subdomainsOnly domain, .subdomainsOnly candidate => isSubdomainOrEqual candidate domain
  | .subdomainsOnly domain, .apexAndSubdomains candidate => isStrictSubdomain candidate domain
  | .apexAndSubdomains domain, .exact candidate => isSubdomainOrEqual candidate domain
  | .apexAndSubdomains domain, .subdomainsOnly candidate => isSubdomainOrEqual candidate domain
  | .apexAndSubdomains domain, .apexAndSubdomains candidate => isSubdomainOrEqual candidate domain

end DomainPattern

end Codex.NetworkProxy
