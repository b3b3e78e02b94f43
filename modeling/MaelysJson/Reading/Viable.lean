import MaelysJson.Reading.Bound
import MaelysJson.Reading.Reaches
import MaelysJson.Reading.Stops

/-! Where an error points. The bytes before the position of a syntax or an encoding
error can be completed to an accepted text, unless the text is spoiled. -/
namespace MaelysJson

open Grammar Run

variable {profile : Profile}

namespace Reading

variable {r : Reading} {before : Bytes}

end Reading

/-! ### Parsing -/

end MaelysJson
