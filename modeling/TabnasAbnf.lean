import TabnasAbnf.Meta.CoreSpans
import TabnasAbnf.Meta.Depth
import TabnasAbnf.Meta.Diagnostic
import TabnasAbnf.Meta.Grammar
import TabnasAbnf.Meta.Counts
import TabnasAbnf.Passes.AnnotateGo
import TabnasAbnf.Passes.Conserve
import TabnasAbnf.Passes.Increment
import TabnasAbnf.Passes.Skipped
import TabnasAbnf.Render.ClassExact
import TabnasAbnf.Render.CodePoint
import TabnasAbnf.Render.Ending
import TabnasAbnf.Render.Escape
import TabnasAbnf.Render.LitText
import TabnasAbnf.Render.InPlace
import TabnasAbnf.Render.SetName
import TabnasAbnf.Render.SimpleAlts
import TabnasAbnf.Render.Spans
import TabnasAbnf.Render.ReadBack
import TabnasAbnf.Clib.Core
import TabnasAbnf.Base.Locks
import TabnasAbnf.Clib.Calls
import TabnasAbnf.Clib.Linear
import TabnasAbnf.Clib.Handles
import TabnasAbnf.Clib.Progress
import TabnasAbnf.Meta.Source
import TabnasAbnf.Meta.Fronts
import TabnasAbnf.Base.Objects
import TabnasAbnf.Meta.CoreCache
