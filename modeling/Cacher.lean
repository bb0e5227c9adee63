import Cacher.Lib.Decimal
import Cacher.Lib.Table
import Cacher.Lib.Files
import Cacher.Rollback
import Cacher.Noninterference
import Cacher.Provenance
import Cacher.Interleaving
import Cacher.Gate
import Cacher.RulesCache
import Cacher.Freshness
import Cacher.Walk
import Cacher.Reset
import Cacher.Purge
import Cacher.IllTyped
import Cacher.Cookies
import Cacher.Actions
import Cacher.Expiry
import Cacher.FullReset
import Cacher.PurgeGlobs
import Cacher.Readers
import Cacher.GlobBounds
import Cacher.CJsonStandard
import Cacher.Directives
import Cacher.Publication
import Cacher.Lib.Store
import Cacher.Lib.Listing
import Cacher.Refinement
import Cacher.Counting
import Cacher.Reports
import Cacher.ToolReports
