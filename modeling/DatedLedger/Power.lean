/-!
# Powers

The bounds of machine words, the scales of decimals and the exponents of doubles are
powers of naturals and integers.  A power is the one of the core library in every
module here, also in those that know the powers of monoids, so that `2 ^ 64` is the
same term in the definitions and in what is proved about them.
-/

namespace DatedLedger

attribute [scoped instance (high + 1)] instPowNat
attribute [default_instance (high + 1)] instPowNat

end DatedLedger
