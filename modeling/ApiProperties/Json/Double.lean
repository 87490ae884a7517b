import ApiProperties.Decimal
import ApiProperties.Json

/-!
Doubles as JSON numbers.
-/

set_option autoImplicit false

namespace ApiProperties.Json

/-- A finite double, in its shortest text. -/
def Number.ofDouble (x : Float) : Number := .other (Decimal.ofDouble x)

def ofDouble (x : Float) : Json := .number (.ofDouble x)

end ApiProperties.Json
