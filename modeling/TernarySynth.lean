import TernarySynth.TritWord
import TernarySynth.CellCode
import TernarySynth.MemoryImage
import TernarySynth.StreamError
import TernarySynth.Cycle
import TernarySynth.ByteStream
import TernarySynth.ImageRun
import TernarySynth.CharClass
import TernarySynth.QuotedText
import TernarySynth.LossyText
import TernarySynth.SourceText
import TernarySynth.SparseMemory
import TernarySynth.Transcript
import TernarySynth.FileTree
import TernarySynth.StateTree
import TernarySynth.Speculation
import TernarySynth.TargetSearch
import TernarySynth.KeyStream
import TernarySynth.RandomSource
import TernarySynth.BeamSearch
import TernarySynth.TextLayout
import TernarySynth.CalendarDate
import TernarySynth.Timestamp
import TernarySynth.LogLine
import TernarySynth.Synthesis
import TernarySynth.MessageTemplate
import TernarySynth.ItemToken
import TernarySynth.TokenContext
import TernarySynth.KeptPassage
import TernarySynth.InnerDeclaration
import TernarySynth.ValueSpelling
import TernarySynth.TokenNest
import TernarySynth.ErrorItem
import TernarySynth.ErrorImpl
import TernarySynth.Console
import TernarySynth.InterpreterCommand
import TernarySynth.SearchCommand
import TernarySynth.Main
import TernarySynth.Proofs.LateDecision
import TernarySynth.Proofs.HolderBooks
import TernarySynth.Proofs.LineMachine
import TernarySynth.Proofs.TritPlaces
import TernarySynth.Proofs.WordRange
import TernarySynth.Proofs.ExpansionEnd
import TernarySynth.Proofs.HandleClient
import TernarySynth.Proofs.DecidedText
import TernarySynth.Proofs.FoundProgram
import TernarySynth.Proofs.HeldChains
import TernarySynth.Proofs.ClientHistory
import TernarySynth.Proofs.HeldMeaning
import TernarySynth.Proofs.SearchBalance
import TernarySynth.Proofs.CellReads
import TernarySynth.Proofs.QuietRun
import TernarySynth.Proofs.LoadedText
import TernarySynth.Proofs.ExpansionLines
import TernarySynth.Proofs.GuidedRun
import TernarySynth.Proofs.RoundYield
import TernarySynth.Proofs.SolutionKept
import TernarySynth.Proofs.NodeConservation
import TernarySynth.Proofs.Generations
import TernarySynth.Proofs.ProgramsApart
import TernarySynth.Proofs.RankOrder
import TernarySynth.Proofs.SearchWork
import TernarySynth.Proofs.PhaseBounds
import TernarySynth.Proofs.RoundDepth
import TernarySynth.Proofs.ImageRange
import TernarySynth.Proofs.RetriedRun
import TernarySynth.Proofs.SettledRun
import TernarySynth.Proofs.LetterCase
import TernarySynth.Proofs.RoundLimit
import TernarySynth.Proofs.StreamedRun
import TernarySynth.Proofs.GoalProgram
import TernarySynth.Proofs.UndrawnSource
import TernarySynth.Proofs.ExactSearch
import TernarySynth.Proofs.LenientRun
import TernarySynth.Proofs.LoadableProgram
import TernarySynth.Proofs.PlainExpansion
import TernarySynth.Proofs.ExpansionBooks
import TernarySynth.Proofs.BestKept
import TernarySynth.Proofs.FairTies
import TernarySynth.Proofs.TracelessPhase
import TernarySynth.Proofs.TextLanguage
import TernarySynth.Proofs.FillerPeriod
import TernarySynth.Proofs.ReadBack
import TernarySynth.Proofs.StrayHandles
import TernarySynth.Proofs.TemplatePieces
import TernarySynth.Proofs.FixedRange
import TernarySynth.Proofs.GregorianDate
import TernarySynth.Proofs.CodeInverse
import TernarySynth.Proofs.TritwiseOperations
import TernarySynth.Proofs.PathShape
import TernarySynth.Proofs.StampOrder
