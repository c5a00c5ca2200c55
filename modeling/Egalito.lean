import Egalito.Analysis.Effects
import Egalito.Disasm.Discovery
import Egalito.Pass.PromoteJumps
import Egalito.Pass.PermuteData
import Egalito.Archive.Safety
import Egalito.Archive.Reload
import Egalito.Generate.InitArray
import Egalito.Generate.DataSections
import Egalito.Generate.Text
import Egalito.Transform.Generator
import Egalito.Pass.Retpoline
import Egalito.Chunk.ChunkList
import Egalito.Analysis.UseDef
import Egalito.Chunk.Resolver
import Egalito.Instr.MakeLinked
import Egalito.Pass.Debloat
import Egalito.Conductor.ThreadLocal
import Egalito.Operation.InsertLists
import Egalito.Analysis.PostDominators
import Egalito.Pass.SplitFunction
import Egalito.Chunk.PLT
import Egalito.Chunk.SpatialChunks
import Egalito.Elf.MappingSymbols
import Egalito.Pass.StackExtend
import Egalito.Cminus.Print
import Egalito.Conductor.ParseOverride
import Egalito.Pass.FixJumpTables
import Egalito.Analysis.SlicingTree
import Egalito.Pass.JumpTableOverestimate
import Egalito.Disasm.CrtBegin
import Egalito.Disasm.Literals
import Egalito.Chunk.AliasMap
import Egalito.Analysis.IndexTables
import Egalito.Load.CallInit
