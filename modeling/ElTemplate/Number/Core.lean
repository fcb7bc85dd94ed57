/-!
# The instances of core

A larger library has further ways to the power and the zero of natural numbers. Where this namespace
is open those of core come first, so that a definition means the same whatever a file imports beside
its module.
-/

namespace ElTemplate.CoreInstances

attribute [scoped instance (high)] instPowNat Zero.ofOfNat0

end ElTemplate.CoreInstances
