import Swytch.Effects.Context
import Swytch.Effects.Dag.Cutoff
import Swytch.Effects.Reconstruct

open swytch.lib swytch.proto swytch.keytrie List

namespace swytch.effects

open EffectRef

variable (log : Log)

variable {log : Log} {key : Bytes} {tips : List Tip} {index : TipSet} {t : Tip} {d : Dag}

end swytch.effects
