import LetLang.Native.Action
import LetLang.Main
import LetLang.Proofs.Restoration
import LetLang.Proofs.Activation
import LetLang.Proofs.Derivation
import LetLang.Proofs.Agreement
import LetLang.Proofs.Linking
import LetLang.Proofs.NameResolution
import LetLang.Proofs.TypedRuns
import LetLang.Proofs.TypeSoundness
import LetLang.Proofs.LexicalScope
import LetLang.Proofs.Lexemes
import LetLang.Proofs.Yield
import LetLang.Proofs.Cursor
import LetLang.Proofs.ParserSoundness
import LetLang.Proofs.ParserCompleteness
import LetLang.Proofs.Scanning
import LetLang.Proofs.RoundTrip
import LetLang.Proofs.Height
import LetLang.Proofs.LongestMatch
import LetLang.Proofs.SideTable
import LetLang.Proofs.Footprint
import LetLang.Proofs.Determinacy
import LetLang.Proofs.Grafting
import LetLang.Proofs.MethodOrder
import LetLang.Proofs.FirstFault
import LetLang.Proofs.Lockstep
import LetLang.Proofs.Termination
import LetLang.Proofs.OutputLimit
import LetLang.Proofs.RenamedRuns
import LetLang.Proofs.KnownTypes
import LetLang.Proofs.HeapTyping
import LetLang.Proofs.Rounding
import LetLang.Proofs.Separation
import LetLang.Proofs.ViablePrefix
import LetLang.Proofs.ScopeStack
import LetLang.Proofs.Unrolling
import LetLang.Proofs.RememberedFrames
import LetLang.Proofs.Denotation
import LetLang.Proofs.ReadBack
import LetLang.Proofs.PostOrder
import LetLang.Proofs.Bookkeeping
