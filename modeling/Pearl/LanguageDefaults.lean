import Pearl.Ty

/-! # Defaults of the language -/

namespace Pearl

/-- What holds where no enclosing scope says otherwise. -/
structure LanguageDefaults where
  /-- of the first constants of every pool, and of initialisers -/
  fixedPrecision : Precision := 31
  floatPrecision : Precision := 24
  /-- width of sizes -/
  fixedLength : Precision := 31
  /-- of the ratio of two durations -/
  durationRatioPrecision : Precision := 24
deriving DecidableEq, Repr

def LanguageDefaults.toJson (d : LanguageDefaults) : Json :=
  .object [("fixed_precision", .nat d.fixedPrecision), ("float_precision", .nat d.floatPrecision),
    ("fixed_length", .nat d.fixedLength),
    ("duration_ratio_precision", .nat d.durationRatioPrecision)]

end Pearl
