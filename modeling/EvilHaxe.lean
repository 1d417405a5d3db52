import EvilHaxe.Evil.BlockHooks
import EvilHaxe.Matcher.Usefulness
import EvilHaxe.Exceptions.FirstCatch
import EvilHaxe.Server.Calls
import EvilHaxe.Purity.Sound
import EvilHaxe.Eval.Refinement
import EvilHaxe.Json.RoundTrip
import EvilHaxe.Jvm.PoolRoundTrip
import EvilHaxe.Ds.AnyRun
import EvilHaxe.Server.Framing
import EvilHaxe.Unify.Runs
import EvilHaxe.Unify.Loops
import EvilHaxe.Xml.RoundTrip
import EvilHaxe.Mods.PipeParse
import EvilHaxe.ParserEntry.DisplayMode
import EvilHaxe.Mods.Transparency
import EvilHaxe.Matcher.ArityCoherence
import EvilHaxe.Evil.Coverage
import EvilHaxe.ParserEntry.Restore
import EvilHaxe.Escapes.Grammar
import EvilHaxe.Literals.Integers
import EvilHaxe.ParserEntry.VersionText
import EvilHaxe.Lexer.FindLine
import EvilHaxe.Path.UniqueKey
import EvilHaxe.Path.Normalized
import EvilHaxe.Lexer.LineEnds
import EvilHaxe.Json.Surrogates
import EvilHaxe.Json.Indentation
import EvilHaxe.Serial.Progress
import EvilHaxe.Numeric.ParseString
import EvilHaxe.Zip.Symbols
import EvilHaxe.Zip.Window
import EvilHaxe.Crypto.BaseCode
import EvilHaxe.Ds.ArraySorted
import EvilHaxe.Ds.ListSort
import EvilHaxe.Server.Tasks
import EvilHaxe.Unicode.Validate
import EvilHaxe.Io.BytesInput
import EvilHaxe.Numeric.MacroNumbers
import EvilHaxe.Unicode.StringSearch
import EvilHaxe.Unify.Overloads
import EvilHaxe.Unicode.StringOffsets
import EvilHaxe.Crypto.DigestsAgree
