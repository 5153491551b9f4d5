import LuaTune.Measure
import LuaTune.Workload
import LuaTune.Proofs.Fix.Appends
import LuaTune.Proofs.Fix.Nested
import LuaTune.Proofs.Fix.Conflicts
import LuaTune.Proofs.Fix.Collecting
import LuaTune.Proofs.Fix.Caching
import LuaTune.Proofs.Finding.Faults
import LuaTune.Proofs.Resources.Placement
import LuaTune.Proofs.Analysis.Depth
import LuaTune.Proofs.Analysis.Paths
import LuaTune.Proofs.Command.Reported
import LuaTune.Proofs.Recovery.Revert
import LuaTune.Proofs.Runs.Confined
import LuaTune.Proofs.Runs.FirstBackup
import LuaTune.Proofs.Runs.Severities
import LuaTune.Proofs.Runs.SingleScript
import LuaTune.Proofs.Fix.Operators
import LuaTune.Proofs.Fix.LineFixes
import LuaTune.Proofs.Fix.GlobalCopies
import LuaTune.Proofs.Runs.DebugArchives
import LuaTune.Proofs.Analysis.GlobalWrites
import LuaTune.Proofs.Finding.UnusedVariables
import LuaTune.Proofs.Report.Highlighting
import LuaTune.Proofs.Report.Totals
import LuaTune.Proofs.Report.Sanitized
import LuaTune.Proofs.Fix.LineSpans
import LuaTune.Proofs.Resources.ManifestValues
import LuaTune.Proofs.Lua.Printed
import LuaTune.Command.Extractor
