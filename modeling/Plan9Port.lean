import Plan9Port.Ninep.Lengths
import Plan9Port.Ninep.Serve
import Plan9Port.Mp.Gcd
import Plan9Port.Mp.Vlong
import Plan9Port.Lib9.U32
import Plan9Port.Lib9.Tokenize
import Plan9Port.Avl.Walk
import Plan9Port.Acme.Log
import Plan9Port.Venti.IcacheWrite
import Plan9Port.Venti.Fcall
import Plan9Port.Acme.File
import Plan9Port.Acme.Load
import Plan9Port.Flate.Decsym
import Plan9Port.Mux.Deliver
import Plan9Port.Venti.Arena
import Plan9Port.Venti.Amap
import Plan9Port.Venti.Cache
import Plan9Port.Thread.Safe
import Plan9Port.Thread.Chanalt
import Plan9Port.Diff.Truth
import Plan9Port.Srv.Flush
import Plan9Port.Plumb.Mesg
import Plan9Port.Draw.Unpack
import Plan9Port.Walk.Field
